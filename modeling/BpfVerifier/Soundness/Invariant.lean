import BpfVerifier.Kverify.Accepts
import BpfVerifier.Soundness.WellFormed

/-!
# Soundness/Invariant — what holds of every register the walk tracks

A property of registers that every instruction keeps, given that ALU results and what calls return
have it (`Kept`), holds of the registers and spills of the current state, of the deferred branches
and of the stored states, all along the walk (`WalkInvariant.of_reaches`).  Well-formedness is one,
for the ids handed out so far (`Walk.wf_of_reaches`, `Visits.wf`).
-/

namespace BpfVerifier

open Loop

/-! ## Properties that instructions keep -/

/-- Every register and every spill of a state has the property. -/
structure Everywhere (P : RegState → Prop) (state : VerifierState) (stack : StackState) : Prop where
  regs : ∀ r, P (state.get r)
  spills : ∀ o r, stack.getSpill o = some r → P r

/-- **A property of registers that the walk keeps**, ALU results and what calls return apart. -/
structure Kept (P : RegState → Prop) : Prop where
  tnum : ∀ {r}, P r → r.tnum.Wf
  scalar : ∀ {r}, r.regType = .scalar → r.tnum.Wf → P r
  uninit : P .uninit
  kernelPtr : P .kernelPtr
  dataPtr : ∀ name, P (.unbounded (.dataPtr name))
  written : ∀ {r} (pc : ℕ), P r → P (r.at_ pc)
  /-- A null test on `q` resolves `r`. -/
  resolved : ∀ {q r inner pc id}, P q → q.regType = .ptrOrNull inner pc id → P r →
    P (refineWithId id .null r) ∧ P (refineWithId id inner r)

section

variable {P Q : RegState → Prop} {state : VerifierState} {stack : StackState}

theorem Everywhere.imp (h : Everywhere P state stack) (hPQ : ∀ r, P r → Q r) :
    Everywhere Q state stack :=
  ⟨fun r => hPQ _ (h.regs r), fun o r hr => hPQ _ (h.spills o r hr)⟩

theorem Kept.scalarUnknown (hP : Kept P) : P .scalarUnknown := hP.scalar rfl Tnum.wf_unknown

theorem Kept.scalarValue (hP : Kept P) (v : BitVec 64) : P (.scalarValue v) :=
  hP.scalar rfl (Tnum.wf_constant v)

theorem Kept.isScalar (hP : Kept P) {r : RegState} (h : r.IsScalar) : P r :=
  hP.scalar h.type h.tnum

/-- What two registers widen to. -/
theorem Kept.widen (hP : Kept P) {q r : RegState} (hq : P q) (hr : P r) : P (q.widen r) := by
  by_cases ht : q.regType = r.regType
  · by_cases hs : q.regType = .scalar
    · rw [RegState.widen_of_scalar hs (ht ▸ hs)]
      exact hP.scalar (RegState.regType_refineBounds _)
        (RegState.tnumWf_refineBounds (RegState.tnumWf_widenScalar (hP.tnum hq) (hP.tnum hr)))
    · rw [RegState.widen_of_eq ht hs]
      exact hq
  · rw [RegState.widen_of_ne ht]
    split
    · exact hP.uninit
    · exact hq

namespace Everywhere

theorem set (h : Everywhere P state stack) (dst : Reg) {v : RegState} (hv : P v) :
    Everywhere P (state.set dst v) stack where
  regs r := by
    rw [VerifierState.get_set]
    split
    · exact hv
    · exact h.regs r
  spills := h.spills

theorem setAt (h : Everywhere P state stack) (hP : Kept P) (dst : Reg) {v : RegState} (hv : P v)
    (pc : ℕ) : Everywhere P (state.setAt dst v pc) stack := h.set dst (hP.written pc hv)

theorem clobber (h : Everywhere P state stack) (hP : Kept P) :
    Everywhere P (clobber state) stack where
  regs r := by
    rw [get_clobber]
    split
    · exact hP.uninit
    · exact h.regs r
  spills := h.spills

theorem spill (h : Everywhere P state stack) (o : BitVec 64) {v : RegState} (hv : P v) :
    Everywhere P state (stack.spill o v) where
  regs := h.regs
  spills o' r hr := by
    rw [StackState.getSpill_spill] at hr
    split at hr
    · obtain rfl := Option.some.inj hr
      exact hv
    · exact h.spills o' r hr

theorem markWritten (h : Everywhere P state stack) (o : BitVec 64) (size : ℕ) :
    Everywhere P state (stack.markWritten o size) :=
  ⟨h.regs, fun o' r hr => h.spills o' r (by rwa [StackState.getSpill_markWritten] at hr)⟩

theorem trackHelperWrite (h : Everywhere P state stack) (hP : Kept P) (helper : HelperSpec) :
    Everywhere P state (trackHelperWrite state stack helper) := by
  unfold BpfVerifier.trackHelperWrite
  split
  · split
    · dsimp only
      split
      · split
        · exact (h.markWritten _ _).spill _ hP.kernelPtr
        · exact h.spill _ hP.kernelPtr
      · split
        · exact h.markWritten _ _
        · exact h
    · exact h
  · exact h

theorem storeStack (h : Everywhere P state stack) (base : RegState) (val : Option Reg)
    (off : BitVec 64) (width : ℕ) :
    Everywhere P state (storeStack stack base (val.map state.get) off width) := by
  have hclear (o : BitVec 64) : Everywhere P state (stack.clearSpill o) := by
    refine ⟨h.regs, fun o' r hr => ?_⟩
    rw [StackState.getSpill_clearSpill] at hr
    split at hr
    · cases hr
    · exact h.spills o' r hr
  unfold BpfVerifier.storeStack
  split
  · cases val with
    | none => exact (hclear _).markWritten _ _
    | some reg =>
      simp only [Option.map_some]
      split
      · exact h.spill _ (h.regs reg)
      · exact (hclear _).markWritten _ _
  · exact h

theorem loadResult (h : Everywhere P state stack) (hP : Kept P) (base : RegState)
    (off : BitVec 64) (width : ℕ) : P (loadResult stack base off width) := by
  unfold BpfVerifier.loadResult
  cases base.regType with
  | framePtr ptrOff =>
    dsimp only
    split
    · cases hs : stack.getSpill (ptrOff + off) with
      | none => exact hP.scalarUnknown
      | some r => exact h.spills _ r hs
    · exact hP.scalarUnknown
  | ctxPtr _ =>
    dsimp only
    split
    · exact hP.kernelPtr
    · exact hP.scalarUnknown
  | kernelPtr =>
    dsimp only
    split
    · exact hP.kernelPtr
    · exact hP.scalarUnknown
  | _ => exact hP.scalarUnknown

/-- An ALU result is a register of the state, a scalar or a pointer moved. -/
theorem aluResult (h : Everywhere P state stack) (hP : Kept P) {insn : BpfInsn} {op : AluOp}
    {src : Source} {is64 : Bool} {r : RegState} (hr : AluResult state insn op src is64 r)
    (hmove : ∀ t delta, Moves (state.get insn.dst) (aluSrcState state insn src is64) op t delta →
      P (.unbounded (shiftPtr t delta))) : P r := by
  have hoperand : P (aluSrcState state insn src is64) := by
    cases src with
    | imm => exact hP.scalarValue _
    | reg => exact h.regs _
  cases hr with
  | mov _ =>
    unfold movState
    cases src with
    | imm => exact hoperand
    | reg =>
      cases is64 with
      | true => exact hoperand
      | false => exact hP.scalar rfl (hP.tnum hoperand).trunc32
  | neg _ _ => exact hP.scalarUnknown
  | binary _ _ _ _ hb =>
    cases hb with
    | distance _ _ _ => exact hP.scalarUnknown
    | shift hd hs hop => exact hmove _ _ (.shift hd hs hop)
    | swap hd hs hop => exact hmove _ _ (.swap hd hs hop)
    | scalar _ _ =>
      have hwf := RegState.wf_scalarAlu (n := 0) (state.get insn.dst)
        (aluSrcState state insn src is64) op is64 (hP.tnum (h.regs insn.dst))
      exact hP.scalar (RegState.regType_refineBounds _) hwf.tnum

theorem loadImm64 (h : Everywhere P state stack) (hP : Kept P) (p : Program) (pc : ℕ)
    (insn : BpfInsn) : Everywhere P (loadImm64 p pc insn state) stack := by
  unfold BpfVerifier.loadImm64
  split
  · exact h.setAt hP _ hP.scalarUnknown _
  · exact h.set _ (hP.dataPtr _)
  · exact h.setAt hP _ hP.kernelPtr _
  · exact h.setAt hP _ (hP.scalarValue _) _

theorem refineWithId (h : Everywhere P state stack) {ptrId : ℕ} {newType : RegType}
    (hr : ∀ r, P r → P (refineWithId ptrId newType r)) : Everywhere P
      (refineAllWithId state ptrId newType) (refineSpillsWithId stack ptrId newType) where
  regs r := hr _ (h.regs r)
  spills o r hs := by
    rw [getSpill_refineSpillsWithId] at hs
    obtain ⟨r', hr', rfl⟩ := Option.map_eq_some_iff.mp hs
    exact hr _ (h.spills o r' hr')

/-- Both edges of a branch. -/
theorem refineBranch (h : Everywhere P state stack) (hP : Kept P) (insn : BpfInsn) (op : JmpOp)
    (src : Source) (is32 : Bool) :
    let b := refineBranch ⟨state, stack, state, stack⟩ insn op src is32
    Everywhere P b.taken b.takenStack ∧ Everywhere P b.fall b.fallStack := by
  unfold BpfVerifier.refineBranch
  split
  · next inner _ ptrId _ hptr =>
    have hresolved (r : RegState) (hr : P r) := hP.resolved (h.regs insn.dst) hptr hr
    split
    · unfold refineNull
      split
      · exact ⟨h.refineWithId fun r hr => (hresolved r hr).1,
          h.refineWithId fun r hr => (hresolved r hr).2⟩
      · exact ⟨h.refineWithId fun r hr => (hresolved r hr).2,
          h.refineWithId fun r hr => (hresolved r hr).1⟩
      · exact ⟨h, h⟩
    · exact ⟨h, h⟩
  · next hscalar =>
    have hs : (state.get insn.dst).IsScalar := ⟨hscalar, hP.tnum (h.regs insn.dst)⟩
    unfold refineScalar
    cases is32 with
    | false =>
      obtain ⟨ht, hf⟩ := isScalar_refineScalar64 hs op _
      exact ⟨h.set _ (hP.isScalar ht), h.set _ (hP.isScalar hf)⟩
    | true =>
      obtain ⟨ht, hf⟩ := isScalar_refineScalar32 hs op _
      exact ⟨h.set _ (hP.isScalar ht), h.set _ (hP.isScalar hf)⟩
  · exact ⟨h, h⟩

theorem widen (h : Everywhere P state stack) (hP : Kept P) {state' : VerifierState}
    {stack' : StackState} (h' : Everywhere P state' stack') :
    Everywhere P (state.widen state') (stack.widen stack') where
  regs r := hP.widen (h.regs r) (h'.regs r)
  spills o r hr := by
    rw [StackState.getSpill_widen] at hr
    obtain ⟨q, hq, rfl⟩ := Option.map_eq_some_iff.mp hr
    split
    · next q' hq' => exact hP.widen (h.spills o q hq) (h'.spills o q' hq')
    · exact h.spills o q hq

end Everywhere

theorem everywhere_entry (hP : Kept P) (hctx : P (.ctxPtr 0)) (hframe : P (.framePtr 0)) :
    Everywhere P .entry .new where
  regs r := by
    cases r with
    | r1 => exact hctx
    | r10 => exact hframe
    | _ => exact hP.uninit
  spills o r hr := by simp [StackState.getSpill, StackState.new] at hr

/-! ## One instruction -/

/-- A call never takes an id back. -/
theorem le_callReturn (state : VerifierState) (ret : HelperReturn) (pc n : ℕ) :
    n ≤ (callReturn state ret pc n).2 := by
  cases ret with
  | mapPtr | ringBufPtr => exact Nat.le_succ _
  | _ => exact Nat.le_refl _

/-- No instruction takes an id back. -/
theorem le_nextId (p : Program) (pc n : ℕ) (insn : BpfInsn) (state : VerifierState)
    (stack : StackState) :
    n ≤ (transfer p pc insn state stack n).nextId n := by
  cases herr : (transfer p pc insn state stack n).error with
  | none =>
    have h := accepts_of_error herr
    generalize transfer p pc insn state stack n = o at h
    cases h with
    | call _ _ _ => exact le_callReturn ..
    | _ => exact Nat.le_refl _
  | some e =>
    cases ho : transfer p pc insn state stack n with
    | goto _ _ _ _ => simp [ho, Outcome.error] at herr
    | _ => exact Nat.le_refl _

/-- **Accepted instructions keep a property** that their ALU results and returned values have. -/
theorem Accepts.everywhere {p : Program} {pc n : ℕ} {insn : BpfInsn} {o : Outcome}
    (h : Accepts p pc insn state stack n o) (hP : Kept P) (hs : Everywhere P state stack)
    (halu : ∀ op src is64 r, insn.opcode = (if is64 then .alu64 op src else .alu32 op src) →
      AluResult state insn op src is64 r → P r)
    (hcall : ∀ ret, (callReturn state ret pc n).2 = o.nextId n →
      P (callReturn state ret pc n).1) :
    ∀ i ∈ o.successors, Everywhere P i.state i.stack := by
  intro i hi
  cases h with
  | exit _ _ => cases hi
  | call _ _ _ =>
    obtain rfl := List.mem_singleton.mp hi
    exact ((hs.set .r0 (hcall _ rfl)).trackHelperWrite hP _).clobber hP
  | ja _ _ =>
    obtain rfl := List.mem_singleton.mp hi
    exact hs
  | jmp is32 _ _ _ =>
    obtain ⟨ht, hf⟩ := hs.refineBranch hP insn _ _ is32
    rcases List.mem_cons.mp hi with rfl | hi
    · exact hf
    · obtain rfl := List.mem_singleton.mp hi
      exact ht
  | alu is64 hop _ hok =>
    obtain rfl := List.mem_singleton.mp hi
    obtain ⟨r, hr, rfl⟩ := checkAlu_eq_ok hok
    exact hs.setAt hP _ (halu _ _ is64 r hop hr) _
  | ldImm64 _ =>
    obtain rfl := List.mem_singleton.mp hi
    exact hs.loadImm64 hP p pc insn
  | ldx _ _ _ _ =>
    obtain rfl := List.mem_singleton.mp hi
    exact hs.setAt hP _ (hs.loadResult hP _ _ _) _
  | stx _ _ _ _ _ =>
    obtain rfl := List.mem_singleton.mp hi
    exact hs.storeStack _ (some insn.src) _ _
  | st _ _ _ =>
    obtain rfl := List.mem_singleton.mp hi
    exact hs.storeStack _ none _ _

end

/-! ## The walk -/

/-- Every register a walk holds has the property. -/
structure Walk.Everywhere (P : RegState → Prop) (m : Walk) : Prop where
  pending : ∀ i ∈ m.pending, BpfVerifier.Everywhere P i.state i.stack
  explored : ∀ pc, ∀ e ∈ m.explored pc, BpfVerifier.Everywhere P e.1 e.2

namespace Walk.Everywhere

variable {p : Program} {P Q : RegState → Prop} {m m' : Walk}

theorem imp (h : m.Everywhere P) (hPQ : ∀ r, P r → Q r) : m.Everywhere Q :=
  ⟨fun i hi => (h.pending i hi).imp hPQ, fun pc e he => (h.explored pc e he).imp hPQ⟩

theorem counted (h : m.Everywhere P) : m.counted.Everywhere P := ⟨h.pending, h.explored⟩

theorem popOrBreak (h : m.Everywhere P) (hpop : m.popOrBreak = .next m') : m'.Everywhere P := by
  unfold Walk.popOrBreak at hpop
  split at hpop
  · next item rest hb =>
    cases hpop
    refine ⟨fun i hi => h.pending i (List.mem_append_right _ ?_), h.explored⟩
    rw [hb]
    exact hi
  · cases hpop

/-- The state of a visit has the property, and so have the states stored by then. -/
theorem visit (h : m.Everywhere P) (hP : Kept P) {v : Visit} (hv : m.visit p = some v) :
    BpfVerifier.Everywhere P v.state v.stack ∧
      ∀ pc, ∀ e ∈ (m.counted.record p v.pc).explored pc, BpfVerifier.Everywhere P e.1 e.2 := by
  obtain ⟨hcur, -, hstate, hstack, -⟩ := Walk.of_visit p m hv
  have hhere : BpfVerifier.Everywhere P m.state m.stack := by
    refine h.pending ⟨v.pc, m.state, m.stack⟩ (List.mem_append_left _ ?_)
    rw [Walk.here_of_current p m hcur]
    exact List.mem_singleton.mpr rfl
  rw [hstate, hstack]
  have hrec := Walk.recorded p m.counted v.pc
  generalize m.counted.record p v.pc = m' at hrec
  have hupdate {states : List (VerifierState × StackState)}
      (hs : ∀ e ∈ states, BpfVerifier.Everywhere P e.1 e.2) (pc : ℕ) :
      ∀ e ∈ Function.update m.explored v.pc states pc, BpfVerifier.Everywhere P e.1 e.2 := by
    intro e he
    by_cases hpc : pc = v.pc
    · subst hpc
      rw [Function.update_self] at he
      exact hs e he
    · rw [Function.update_of_ne hpc] at he
      exact h.explored pc e he
  cases hrec with
  | @widened regs stack rest hcons =>
    have hold (e) (he : e ∈ (regs, stack) :: rest) : BpfVerifier.Everywhere P e.1 e.2 :=
      h.explored v.pc e (by rwa [show m.explored v.pc = _ from hcons])
    have hw := (hold _ List.mem_cons_self).widen hP hhere
    refine ⟨hw, hupdate fun e he => ?_⟩
    rcases List.mem_cons.mp he with rfl | hrest
    · exact hw
    · exact hold e (List.mem_cons_of_mem _ hrest)
  | stored =>
    refine ⟨hhere, hupdate fun e he => ?_⟩
    rcases List.mem_append.mp he with hold | hnew
    · exact h.explored v.pc e hold
    · obtain rfl := List.mem_singleton.mp hnew
      exact hhere
  | full => exact ⟨hhere, h.explored⟩

end Walk.Everywhere

/-- **A property of registers that depends on the visits made and the ids handed out**, and that
holds of what each visit computes. -/
structure WalkInvariant (p : Program) (P : ℕ → ℕ → RegState → Prop) : Prop where
  kept : ∀ k n, Kept (P k n)
  mono : ∀ {k k' n n' r}, k ≤ k' → n ≤ n' → P k n r → P k' n' r
  ctx : P 0 0 (.ctxPtr 0)
  frame : P 0 0 (.framePtr 0)
  alu : ∀ {k v}, p.Visits v → k < COMPLEXITY_LIMIT → Everywhere (P k v.idGen) v.state v.stack →
    ∀ op src is64 r, v.insn.opcode = (if is64 then .alu64 op src else .alu32 op src) →
      AluResult v.state v.insn op src is64 r → P (k + 1) v.idGen r
  call : ∀ k n state ret pc,
    P k (callReturn state ret pc n).2 (callReturn state ret pc n).1

namespace WalkInvariant

variable {p : Program} {P : ℕ → ℕ → RegState → Prop} {m : Walk}

/-- What a visit leaves to explore has the property. -/
theorem successors (hI : WalkInvariant p P) {v : Visit} (hv : p.Visits v) {k : ℕ}
    (hk : k < COMPLEXITY_LIMIT) (h : Everywhere (P k v.idGen) v.state v.stack) :
    ∀ i ∈ (v.outcome p).successors,
      Everywhere (P (k + 1) ((v.outcome p).nextId v.idGen)) i.state i.stack := by
  have hle := le_nextId p v.pc v.idGen v.insn v.state v.stack
  change v.idGen ≤ (v.outcome p).nextId v.idGen at hle
  cases herr : (v.outcome p).error with
  | none =>
    have hacc : Accepts p v.pc v.insn v.state v.stack v.idGen (v.outcome p) :=
      accepts_of_error herr
    have hnext := h.imp fun r hr => hI.mono (Nat.le_succ k) hle hr
    refine hacc.everywhere (hI.kept _ _) hnext (fun op src is64 r hop hr => ?_)
      fun ret hid => ?_
    · exact hI.mono (Nat.le_refl _) hle (hI.alu hv hk h op src is64 r hop hr)
    · rw [← hid]
      exact hI.call (k + 1) v.idGen v.state ret v.pc
  | some e =>
    cases ho : v.outcome p with
    | goto _ _ _ _ => simp [ho, Outcome.error] at herr
    | branch _ _ _ => simp [ho, Outcome.error] at herr
    | _ => exact fun i hi => by cases hi

/-- One pass keeps the property. -/
theorem step (hI : WalkInvariant p P) (hr : Reaches (Walk.step p) .initial m)
    (hm : m.Everywhere (P m.totalVisited m.idGen)) {m' : Walk} (hstep : m.step p = .next m') :
    m'.Everywhere (P m'.totalVisited m'.idGen) := by
  have hpass := Walk.pass p m
  rw [hstep] at hpass
  generalize hc : Control.next m' = c at hpass
  cases hpass with
  | ended _ =>
    obtain ⟨-, hvisited, hid, -⟩ := Walk.of_popOrBreak m (Or.inl hc.symm)
    rw [hvisited, hid]
    exact hm.popOrBreak hc.symm
  | limit _ => cases hc
  | dominated _ _ _ =>
    obtain ⟨-, hvisited, hid, -⟩ := Walk.of_popOrBreak m.counted (Or.inl hc.symm)
    rw [hvisited, hid]
    exact hm.counted.popOrBreak hc.symm |>.imp fun r h =>
      hI.mono (Nat.le_succ _) (Nat.le_refl _) h
  | @visit v hv hlim =>
    obtain rfl := Control.next.inj hc
    obtain ⟨hvisit, hexplored⟩ := hm.visit (hI.kept _ _) hv
    obtain ⟨-, -, -, -, hid⟩ := Walk.of_visit p m hv
    obtain ⟨-, hvisited, hids, hback⟩ := (Walk.recorded p m.counted v.pc).rest
    have hle : m.idGen ≤ (v.outcome p).nextId m.idGen :=
      hid ▸ le_nextId p v.pc v.idGen v.insn v.state v.stack
    have hmono (r : RegState) (h : P m.totalVisited m.idGen r) :
        P (m.totalVisited + 1) ((v.outcome p).nextId m.idGen) r := hI.mono (Nat.le_succ _) hle h
    rw [← hid] at hvisit
    have hnext := hI.successors ⟨m, hr, hv⟩ hlim hvisit
    rw [hid] at hnext
    rw [Walk.totalVisited_follow, Walk.idGen_follow, hvisited, hids]
    constructor
    · intro i hi
      rw [Walk.pending_follow, hback] at hi
      rcases List.mem_append.mp hi with hi | hi
      · exact hnext i hi
      · exact (hm.pending i (List.mem_append_right _ hi)).imp hmono
    · intro pc e he
      rw [Walk.explored_follow] at he
      exact (hexplored pc e he).imp hmono

/-- **The property holds all along the walk.** -/
theorem of_reaches (hI : WalkInvariant p P) (hr : Reaches (Walk.step p) .initial m) :
    m.Everywhere (P m.totalVisited m.idGen) := by
  induction hr with
  | start =>
    refine ⟨fun i hi => ?_, fun pc e he => by simp [Walk.initial] at he⟩
    obtain rfl := List.mem_singleton.mp hi
    exact everywhere_entry (hI.kept 0 0) hI.ctx hI.frame
  | next hr hs ih => exact hI.step hr ih hs

/-- **The property holds of every visit**, made within the limit. -/
theorem of_visits (hI : WalkInvariant p P) {v : Visit} (hv : p.Visits v) :
    ∃ k < COMPLEXITY_LIMIT, Everywhere (P k v.idGen) v.state v.stack := by
  obtain ⟨m, hr, hv⟩ := hv
  obtain ⟨-, -, -, -, hid⟩ := Walk.of_visit p m hv
  refine ⟨m.totalVisited, Walk.lt_of_visit p m hv, ?_⟩
  rw [hid]
  exact ((hI.of_reaches hr).visit (hI.kept _ _) hv).1

end WalkInvariant

/-! ## Well-formedness -/

/-- Every register and every spill of a state is well formed. -/
structure StateWf (n : ℕ) (state : VerifierState) (stack : StackState) : Prop where
  regs : ∀ r, (state.get r).Wf n
  spills : ∀ o r, stack.getSpill o = some r → r.Wf n

theorem stateWf_iff {n : ℕ} {state : VerifierState} {stack : StackState} :
    StateWf n state stack ↔ Everywhere (RegState.Wf n) state stack :=
  ⟨fun h => ⟨h.regs, h.spills⟩, fun h => ⟨h.regs, h.spills⟩⟩

theorem kept_wf (n : ℕ) : Kept (RegState.Wf n) where
  tnum h := h.tnum
  scalar := RegState.wf_of_scalar
  uninit := RegState.wf_uninit
  kernelPtr := RegState.wf_kernelPtr
  dataPtr _ := RegState.wf_unbounded trivial
  written pc h := h.at pc
  resolved hq ht hr := by
    have hids := hq.ids
    rw [ht] at hids
    exact ⟨hr.refineWithId _ trivial, hr.refineWithId _ (RegType.idsBelow_of_isResult hids.2)⟩

/-- A moved pointer names no more nullable pointers than before. -/
theorem idsBelow_shiftPtr (n : ℕ) (t : RegType) (delta : Option (BitVec 64)) :
    (shiftPtr t delta).IdsBelow n := by
  unfold shiftPtr
  split <;> trivial

/-- A call hands out an id only to the pointer it returns. -/
theorem wf_callReturn (n : ℕ) (state : VerifierState) (ret : HelperReturn) (pc : ℕ) :
    (callReturn state ret pc n).1.Wf (callReturn state ret pc n).2 := by
  cases ret with
  | scalar => exact RegState.wf_scalarUnknown
  | errorCode => exact RegState.wf_scalarUnknown
  | kernelPtr => exact RegState.wf_kernelPtr
  | mapPtr => exact RegState.wf_unbounded ⟨Nat.lt_succ_self _, rfl⟩
  | ringBufPtr => exact RegState.wf_unbounded ⟨Nat.lt_succ_self _, rfl⟩

theorem walkInvariant_wf (p : Program) : WalkInvariant p fun _ n => RegState.Wf n where
  kept _ n := kept_wf n
  mono _ hn h := h.mono hn
  ctx := RegState.wf_unbounded (t := .ctxPtr 0) trivial
  frame := RegState.wf_unbounded (t := .framePtr 0) trivial
  alu _ _ h _ _ _ _ _ hr := h.aluResult (kept_wf _) hr fun t delta _ =>
    RegState.wf_unbounded (idsBelow_shiftPtr _ t delta)
  call _ n := wf_callReturn n

/-- Every state a walk holds is well formed. -/
structure Walk.Wf (m : Walk) : Prop where
  pending : ∀ i ∈ m.pending, StateWf m.idGen i.state i.stack
  explored : ∀ pc, ∀ e ∈ m.explored pc, StateWf m.idGen e.1 e.2

/-- **Every state the walk of a programme holds is well formed.** -/
theorem Walk.wf_of_reaches {p : Program} {m : Walk} (hr : Reaches (Walk.step p) .initial m) :
    m.Wf := by
  have h := (walkInvariant_wf p).of_reaches hr
  exact ⟨fun i hi => stateWf_iff.mpr (h.pending i hi),
    fun pc e he => stateWf_iff.mpr (h.explored pc e he)⟩

/-- **Every visit is made in a well-formed state.** -/
theorem Program.Visits.wf {p : Program} {v : Visit} (h : p.Visits v) :
    StateWf v.idGen v.state v.stack := by
  obtain ⟨k, -, hwf⟩ := (walkInvariant_wf p).of_visits h
  exact stateWf_iff.mpr hwf

end BpfVerifier
