import BpfVerifier.Machinery.Journal
import BpfVerifier.Soundness.Calls

/-!
# Properties/Slots — what the stack is known to hold

The stack tracks spilled registers by offset and written bytes by index.  Along any sequence of
accepted stores, helper calls and branches every spill entry is backed by the last write to its slot
exactly when no step writes into the slot of an entry it neither replaces nor clears
(`spills_backed_iff`): a store clears the entry at its own offset only, and a helper call none.
-/

namespace BpfVerifier

variable {state : VerifierState} {stack stack' : StackState} {insn : BpfInsn} {helper : HelperSpec}
  {k o : BitVec 64}

/-! ## Writes to the stack -/

/-- What one step does to the bytes of the stack and to the spill entry at the first of them. -/
structure StackEvent where
  start : BitVec 64
  size : ℕ
  /-- The register recorded at `start`. -/
  spilled : Option RegState
  /-- The entry at `start` goes, if none is recorded there. -/
  clears : Bool

namespace StackEvent

/-- A step that writes nothing. -/
def quiet : StackEvent := ⟨0, 0, none, false⟩

/-- A store of a register, or of an immediate. -/
def store (o : BitVec 64) (width : ℕ) (val : Option RegState) : StackEvent :=
  ⟨o, width, val.filter fun v => width = 8 ∧ (v.regType.isPtr ∨ v.regType.isPtrOrNull), true⟩

/-- A helper that fills a buffer of `n` bytes. -/
def fill (state : VerifierState) (helper : HelperSpec) (o n : BitVec 64) : StackEvent :=
  ⟨o, n.toNat, if respills state helper then some .kernelPtr else none, false⟩

/-- The step decides the entry at `k`. -/
def Sets (e : StackEvent) (k : BitVec 64) : Prop :=
  k = e.start ∧ (e.clears = true ∨ e.spilled.isSome = true)

instance (e : StackEvent) (k : BitVec 64) : Decidable (e.Sets k) :=
  inferInstanceAs (Decidable (_ ∧ _))

theorem sets_fill {n : BitVec 64} :
    (fill state helper o n).Sets k ↔ respills state helper = true ∧ k = o := by
  cases hr : respills state helper <;> simp [Sets, fill, hr]

/-- The step decides every entry in whose slot it writes a byte. -/
def Spares (stack : StackState) (e : StackEvent) : Prop :=
  ∀ k r, stack.getSpill k = some r → apart k e.start e.size = false → e.Sets k

end StackEvent

/-- The sizes a register passed as a size can have. -/
def RegState.IsSize (r : RegState) (n : BitVec 64) : Prop :=
  match r.regType with
  | .scalar => r.Admits n
  | .null => n = 0
  | _ => True

/-- **The steps that reach the stack**: an accepted store through a frame pointer (`val` is the
register an STX stores), an accepted call with what its helper writes, either edge of a branch. -/
inductive StackStep : StackState → StackEvent → StackState → Prop
  | store {stack stack' : StackState} {state : VerifierState} {insn : BpfInsn} {width : MemWidth}
      {val : Option RegState} {pc : ℕ} {loc : Option SourceLoc} {locs : List (Option SourceLoc)}
      {o : BitVec 64} : (state.get insn.dst).regType = .framePtr o →
      checkStore state stack insn width val pc loc locs = .ok stack' →
      StackStep stack (.store (o + insn.off) (widthBytes width) val) stack'
  | fill {stack stack' : StackState} {state state' : VerifierState} {insn : BpfInsn} {pc : ℕ}
      {loc : Option SourceLoc} {idGen idGen' : ℕ} {helper : HelperSpec} {ptr size : RegState}
      {o n : BitVec 64} : getHelper insn.imm = some helper →
      checkCall state stack insn pc loc idGen = .ok (state', stack', idGen') →
      bufferRegs state helper = some (ptr, size) → ptr.regType = .framePtr o → size.IsSize n →
      StackStep stack (.fill state helper o n) stack'
  | call {stack stack' : StackState} {state state' : VerifierState} {insn : BpfInsn} {pc : ℕ}
      {loc : Option SourceLoc} {idGen idGen' : ℕ} {helper : HelperSpec} :
      getHelper insn.imm = some helper →
      checkCall state stack insn pc loc idGen = .ok (state', stack', idGen') →
      (∀ ptr size o, bufferRegs state helper = some (ptr, size) → ptr.regType ≠ .framePtr o) →
      StackStep stack .quiet stack'
  | taken {stack : StackState} {state : VerifierState} {insn : BpfInsn} {op : JmpOp} {src : Source}
      {is32 : Bool} : StackStep stack .quiet
        (refineBranch ⟨state, stack, state, stack⟩ insn op src is32).takenStack
  | fall {stack : StackState} {state : VerifierState} {insn : BpfInsn} {op : JmpOp} {src : Source}
      {is32 : Bool} : StackStep stack .quiet
        (refineBranch ⟨state, stack, state, stack⟩ insn op src is32).fallStack

/-- What a branch may make of a spilled register. -/
def BranchRefines (r r' : RegState) : Prop := r' = r ∨ ∃ id t, r' = refineWithId id t r

/-- The spill entries as a journal of the writes to their slots. -/
def spillJournal : Journal StackState StackEvent (BitVec 64) RegState where
  get := StackState.getSpill
  step := StackStep
  binds e k r := k = e.start ∧ e.spilled = some r
  drops e k := k = e.start ∧ e.clears = true
  touches e k := apart k e.start e.size = false
  carries := BranchRefines

/-! ## What each step makes of the entries -/

/-- The entries after a store: the one at its offset is the register spilled, if one is. -/
theorem getSpill_storeStack {base : RegState} {val : Option RegState} {off : BitVec 64} {width : ℕ}
    (ht : base.regType = .framePtr o) :
    (storeStack stack base val off width).getSpill k
      = if k = o + off then (StackEvent.store (o + off) width val).spilled
        else stack.getSpill k := by
  have hplain : ((stack.clearSpill (o + off)).markWritten (o + off) width).getSpill k
      = if k = o + off then none else stack.getSpill k := by simp
  simp only [storeStack, ht, StackEvent.store]
  cases val with
  | none => exact hplain
  | some v =>
    simp only [Option.filter_some, decide_eq_true_eq]
    split
    · exact StackState.getSpill_spill ..
    · exact hplain

/-- The entries after a call that writes to the frame. -/
theorem getSpill_fill {ptr size : RegState} (hmem : helper ∈ HELPERS)
    (hb : bufferRegs state helper = some (ptr, size)) (ht : ptr.regType = .framePtr o) :
    (trackHelperWrite state stack helper).getSpill k
      = if respills state helper = true ∧ k = o then some .kernelPtr else stack.getSpill k := by
  cases hw : writesArg1 helper with
  | false =>
    rw [trackHelperWrite_of_not_writes hw]
    simp [respills, hw]
  | true =>
    have h₀ := (writesArg1_iff hmem).mp hw
    obtain ⟨rfl, -⟩ : state.get .r1 = ptr ∧ state.get .r2 = size := by
      simpa [bufferRegs, h₀] using hb
    exact getSpill_trackHelperWrite ht hw

/-- A call that has no buffer in the frame leaves the stack alone. -/
theorem trackHelperWrite_eq_self (hmem : helper ∈ HELPERS)
    (hb : ∀ ptr size o, bufferRegs state helper = some (ptr, size) → ptr.regType ≠ .framePtr o) :
    trackHelperWrite state stack helper = stack := by
  cases hw : writesArg1 helper with
  | false => exact trackHelperWrite_of_not_writes hw
  | true =>
    have h₀ := (writesArg1_iff hmem).mp hw
    have ht := fun o => hb (state.get .r1) (state.get .r2) o (by simp [bufferRegs, h₀])
    unfold trackHelperWrite
    split
    · next o heq => exact absurd heq (ht o)
    · rfl

/-- The stack after an accepted call. -/
theorem stack_of_checkCall {state' : VerifierState} {pc idGen idGen' : ℕ} {loc : Option SourceLoc}
    (hget : getHelper insn.imm = some helper)
    (hok : checkCall state stack insn pc loc idGen = .ok (state', stack', idGen')) :
    stack' = trackHelperWrite state stack helper := by
  obtain ⟨helper', hget', -, heq⟩ := checkCall_eq_ok hok
  obtain rfl := Option.some.inj (hget.symm.trans hget')
  obtain ⟨-, hrest⟩ := Prod.mk.inj heq
  rw [(Prod.mk.inj hrest).1, trackHelperWrite_set_r0]

/-- The stack on either edge of a branch. -/
theorem edgeStack_of_refineBranch {op : JmpOp} {src : Source} {is32 : Bool}
    (h : stack' = (refineBranch ⟨state, stack, state, stack⟩ insn op src is32).takenStack ∨
      stack' = (refineBranch ⟨state, stack, state, stack⟩ insn op src is32).fallStack) :
    stack' = stack ∨ ∃ id t, stack' = refineSpillsWithId stack id t := by
  unfold refineBranch at h
  split at h
  · split at h
    · unfold refineNull at h
      split at h
      · exact Or.inr (h.elim (fun h => ⟨_, _, h⟩) fun h => ⟨_, _, h⟩)
      · exact Or.inr (h.elim (fun h => ⟨_, _, h⟩) fun h => ⟨_, _, h⟩)
      · exact Or.inl (h.elim id id)
    · exact Or.inl (h.elim id id)
  · exact Or.inl (h.elim id id)
  · exact Or.inl (h.elim id id)

/-- **Every step decides the entry at its start, or none, and carries the others over.** -/
theorem StackStep.entries {e : StackEvent} (h : StackStep stack e stack') :
    ∃ f, (∀ r, BranchRefines r (f r)) ∧ ∀ k, stack'.getSpill k
      = if e.Sets k then e.spilled else (stack.getSpill k).map f := by
  have hself (r : RegState) : BranchRefines r (id r) := Or.inl rfl
  have hquiet (hs : stack' = stack ∨ ∃ id t, stack' = refineSpillsWithId stack id t) :
      ∃ f, (∀ r, BranchRefines r (f r)) ∧ ∀ k, stack'.getSpill k
        = if StackEvent.quiet.Sets k then StackEvent.quiet.spilled
          else (stack.getSpill k).map f := by
    have hsets (k : BitVec 64) : ¬StackEvent.quiet.Sets k := by
      simp [StackEvent.Sets, StackEvent.quiet]
    rcases hs with rfl | ⟨id, t, rfl⟩
    · exact ⟨_, hself, fun k => by rw [if_neg (hsets k), Option.map_id_apply]⟩
    · exact ⟨refineWithId id t, fun r => Or.inr ⟨id, t, rfl⟩, fun k => by
        rw [if_neg (hsets k), getSpill_refineSpillsWithId]⟩
  cases h with
  | store ht hok =>
    obtain ⟨-, -, rfl⟩ := checkStore_eq_ok hok
    refine ⟨_, hself, fun k => ?_⟩
    rw [getSpill_storeStack ht, Option.map_id_apply]
    simp only [StackEvent.Sets, StackEvent.store, true_or, and_true]
  | fill hget hok hb ht _ =>
    obtain rfl := stack_of_checkCall hget hok
    refine ⟨_, hself, fun k => ?_⟩
    rw [getSpill_fill (mem_helpers_of_getHelper hget) hb ht, Option.map_id_apply]
    simp only [StackEvent.sets_fill]
    split
    · next hk => simp only [StackEvent.fill, hk.1, if_true]
    · rfl
  | call hget hok hb =>
    obtain rfl := stack_of_checkCall hget hok
    exact hquiet (Or.inl (trackHelperWrite_eq_self (mem_helpers_of_getHelper hget) hb))
  | taken => exact hquiet (edgeStack_of_refineBranch (Or.inl rfl))
  | fall => exact hquiet (edgeStack_of_refineBranch (Or.inr rfl))

/-! ## Spill integrity -/

/-- An event decides the entries it binds or drops. -/
theorem settles_iff {e : StackEvent} : spillJournal.Settles e k ↔ e.Sets k := by
  simp only [Journal.Settles, spillJournal, StackEvent.Sets, Option.isSome_iff_exists]
  constructor
  · rintro (⟨hk, hc⟩ | ⟨r, hk, hr⟩)
    · exact ⟨hk, Or.inl hc⟩
    · exact ⟨hk, Or.inr ⟨r, hr⟩⟩
  · rintro ⟨hk, hc | ⟨r, hr⟩⟩
    · exact Or.inl ⟨hk, hc⟩
    · exact Or.inr ⟨r, hk, hr⟩

theorem lawful_spillJournal : spillJournal.Lawful where
  settled := by
    intro stack stack' e k r hs hk hget
    obtain ⟨f, -, hentries⟩ := StackStep.entries hs
    have hsets := settles_iff.mp hk
    exact ⟨hsets.1, by rw [← hget]; exact ((hentries k).trans (if_pos hsets)).symm⟩
  kept := by
    intro stack stack' e k r hs hk hget
    obtain ⟨f, -, hentries⟩ := StackStep.entries hs
    have hold : stack.getSpill k = some r := hget
    refine ⟨f r, (hentries k).trans ?_⟩
    rw [if_neg (mt settles_iff.mpr hk), hold, Option.map_some]
  carried := by
    intro stack stack' e k r' hs hk hget
    obtain ⟨f, hf, hentries⟩ := StackStep.entries hs
    have hnew : stack'.getSpill k = some r' := hget
    rw [hentries, if_neg (mt settles_iff.mpr hk), Option.map_eq_some_iff] at hnew
    obtain ⟨r, hr, rfl⟩ := hnew
    exact ⟨r, hr, hf r⟩

/-- **Spill integrity**: all along a run every entry was spilled, up to branch refinement, by the
last step to write into its slot, exactly when every step of the run decides the entries in whose
slots it writes. -/
theorem spills_backed_iff {h : List (StackState × StackEvent)}
    (hrun : spillJournal.Run .new h stack) :
    Journal.Along (fun h stack => ∀ k r, stack.getSpill k = some r → spillJournal.Backed h k r)
        h stack ↔ ∀ x ∈ h, x.2.Spares x.1 := by
  have hall := Journal.along_backed_iff lawful_spillJournal (fun _ => rfl) hrun
  refine hall.trans (forall₂_congr fun x _ => ?_)
  exact forall₃_congr fun k r _ => imp_congr_right fun _ => settles_iff

/-- `*(u64 *)(r10 - 8) = r1` -/
def spillR1 : BpfInsn := ⟨.stx .dw, .r10, .r1, -8, 0, none⟩

/-- `*(u8 *)(r10 - 4) = 0` -/
def clobberSlot : BpfInsn := ⟨.st .b, .r10, .r0, -4, 0, none⟩

/-- The context pointer spilled at -8. -/
def spilledCtx : StackState := StackState.new.spill (0 + spillR1.off) (.ctxPtr 0)

/-- The spill of the context pointer at -8. -/
def spillCtx : StackEvent := .store (0 + spillR1.off) 8 (some (.ctxPtr 0))

/-- A byte stored at -4. -/
def storeByte : StackEvent := .store (0 + clobberSlot.off) 1 none

theorem run_spillCtx : spillJournal.Run .new [(.new, spillCtx)] spilledCtx :=
  .step .start (@StackStep.store _ _ .entry spillR1 .dw _ 0 none [] _ rfl rfl)

theorem run_storeByte : spillJournal.Run .new [(spilledCtx, storeByte), (.new, spillCtx)]
    (storeStack spilledCtx (.framePtr 0) none clobberSlot.off 1) :=
  .step run_spillCtx (@StackStep.store _ _ .entry clobberSlot .b none 1 none [] _ rfl rfl)

/-- `*(u64 *)(r10 - 16) = 0` -/
def storeAside : BpfInsn := ⟨.st .dw, .r10, .r0, -16, 0, none⟩

/-- A word stored below the spilled pointer. -/
def storeWord : StackEvent := .store (0 + storeAside.off) 8 none

theorem run_storeWord : spillJournal.Run .new [(spilledCtx, storeWord), (.new, spillCtx)]
    (storeStack spilledCtx (.framePtr 0) none storeAside.off 8) :=
  .step run_spillCtx (@StackStep.store _ _ .entry storeAside .dw none 1 none [] _ rfl rfl)

/-- The pointer spilled at -8 and a word stored at -16. -/
theorem spills_backed_storeWord :
    Journal.Along (fun h stack => ∀ k r, stack.getSpill k = some r → spillJournal.Backed h k r)
        [(spilledCtx, storeWord), (.new, spillCtx)]
        (storeStack spilledCtx (.framePtr 0) none storeAside.off 8) ↔
      ∀ x ∈ [(spilledCtx, storeWord), (StackState.new, spillCtx)], x.2.Spares x.1 :=
  spills_backed_iff run_storeWord

/-- A byte stored into the slot of a spilled pointer leaves the pointer standing. -/
theorem not_spills_backed :
    ¬∀ h stack, spillJournal.Run .new h stack →
      ∀ k r, stack.getSpill k = some r → spillJournal.Backed h k r := by
  intro hall
  have hget : (storeStack spilledCtx (.framePtr 0) none clobberSlot.off 1).getSpill (-8)
      = some (.ctxPtr 0) := by decide
  have htouch : apart (-8) storeByte.start storeByte.size = false := by decide
  have hsets := settles_iff.mp ((hall _ _ run_storeByte _ _ hget).settles htouch)
  exact absurd hsets (by decide)

/-! ## Helper output -/

theorem checkReadable_one {o : BitVec 64} :
    stack.checkReadable o 1 = true ↔ ∃ j, StackState.toIndex o = some j ∧ stack.init j = true := by
  simp [StackState.checkReadable_iff]

/-- **The bytes readable after a call** that writes to a buffer of the frame. -/
theorem checkReadable_trackHelperWrite (ht : (state.get .r1).regType = .framePtr o)
    (hw : writesArg1 helper = true) (hlow : -512 ≤ o.toInt)
    (hhigh : o.toInt + writeSize (state.get .r2) ≤ 0) {k : BitVec 64} :
    (trackHelperWrite state stack helper).checkReadable k 1 = true ↔
      stack.checkReadable k 1 = true ∨
        ∃ i < writeSize (state.get .r2), k = o + BitVec.ofNat 64 i := by
  simp only [checkReadable_one, init_trackHelperWrite ht hw]
  constructor
  · rintro ⟨j, hj, hold | ⟨i, hi, hidx⟩⟩
    · exact Or.inl ⟨j, hj, hold⟩
    · exact Or.inr ⟨i, hi, eq_of_toIndex hj hidx⟩
  · rintro (⟨j, hj, hold⟩ | ⟨i, hi, rfl⟩)
    · exact ⟨j, hj, Or.inl hold⟩
    · have hoff : (o + BitVec.ofNat 64 i).toInt = o.toInt + i := Word.toInt_add_ofNat (by omega)
      obtain ⟨j, hj⟩ := exists_toIndex (o := o + BitVec.ofNat 64 i) (by omega) (by omega)
      exact ⟨j, hj, Or.inr ⟨i, hi, hj⟩⟩

/-- Of a known size up to 512 the verifier marks what is left of it in a byte. -/
theorem writeSize_of_knownValue {r : RegState} {n : BitVec 64} (hn : r.tnum.knownValue = some n)
    (hle : n.toNat ≤ 512) : writeSize r = n.toNat % 256 := by
  have hmin : min n.toNat (512 : BitVec 64).toNat = n.toNat := Nat.min_eq_left hle
  rw [writeSize, hn, Option.getD_some, Word.toNat_minU, hmin]

/-- Bytes of a buffer are told apart by their distance from its start. -/
theorem add_ofNat_inj {i i' : ℕ} (hi : i < 512) (hi' : i' < 512) :
    o + BitVec.ofNat 64 i = o + BitVec.ofNat 64 i' ↔ i = i' := by
  constructor
  · intro h
    have heq : BitVec.ofNat 64 i = BitVec.ofNat 64 i' := by simpa using h
    have hnat := congrArg BitVec.toNat heq
    rw [BitVec.toNat_ofNat, BitVec.toNat_ofNat] at hnat
    omega
  · rintro rfl
    rfl

/-- **Helper output**: after an accepted call all of the buffer and nothing more is readable exactly
when the bytes from its length modulo 256 on already were. -/
theorem helperOutput_readable_iff {state' : VerifierState} {n : BitVec 64} {pc idGen idGen' : ℕ}
    {loc : Option SourceLoc} (hget : getHelper insn.imm = some helper)
    (hmem : helper.args[0]? = some (some .ptrToMem))
    (hr1 : (state.get .r1).regType = .framePtr o)
    (hr2 : (state.get .r2).tnum.knownValue = some n)
    (hpos : 1 ≤ n.toNat) (hle : n.toNat ≤ 512)
    (hlow : -512 ≤ o.toInt) (hhigh : o.toInt + n.toNat ≤ 0)
    (hok : checkCall state stack insn pc loc idGen = .ok (state', stack', idGen')) :
    ((∀ i < n.toNat, stack'.checkReadable (o + BitVec.ofNat 64 i) 1 = true) ∧
      ∀ k, stack'.checkReadable k 1 = true → stack.checkReadable k 1 = false →
        ∃ i < n.toNat, k = o + BitVec.ofNat 64 i) ↔
    ∀ i < n.toNat, n.toNat % 256 ≤ i → stack.checkReadable (o + BitVec.ofNat 64 i) 1 = true := by
  obtain rfl := stack_of_checkCall hget hok
  have hw := (writesArg1_iff (mem_helpers_of_getHelper hget)).mpr hmem
  have hsize := writeSize_of_knownValue hr2 hle
  have hmod := Nat.mod_le n.toNat 256
  have hread {k : BitVec 64} :
      (trackHelperWrite state stack helper).checkReadable k 1 = true ↔
        stack.checkReadable k 1 = true ∨ ∃ i < n.toNat % 256, k = o + BitVec.ofNat 64 i := by
    rw [checkReadable_trackHelperWrite hr1 hw hlow (by omega), hsize]
  constructor
  · rintro ⟨hall, -⟩ i hi hge
    refine (hread.mp (hall i hi)).resolve_right fun ⟨i', hi', heq⟩ => ?_
    have := (add_ofNat_inj (by omega) (by omega)).mp heq
    omega
  · intro hall
    refine ⟨fun i hi => ?_, fun k hk hold => ?_⟩
    · by_cases hge : n.toNat % 256 ≤ i
      · exact hread.mpr (Or.inl (hall i hi hge))
      · exact hread.mpr (Or.inr ⟨i, by omega, rfl⟩)
    · rcases hread.mp hk with hold' | ⟨i, hi, rfl⟩
      · rw [hold'] at hold
        cases hold
      · exact ⟨i, by omega, rfl⟩

/-- `call get_current_comm` -/
def getComm : BpfInsn := ⟨.call, .r0, .r0, 0, 16, none⟩

/-- A buffer of `n` bytes at the bottom of the frame. -/
def bufferState (n : BitVec 64) : VerifierState :=
  (VerifierState.entry.set .r1 (.framePtr (-512))).set .r2 (.scalarValue n)

theorem helperOutput_readable_sixteen :
    ((∀ i < 16, (StackState.new.markWritten (-512) 16).checkReadable
        (-512 + BitVec.ofNat 64 i) 1 = true) ∧
      ∀ k, (StackState.new.markWritten (-512) 16).checkReadable k 1 = true →
        StackState.new.checkReadable k 1 = false →
        ∃ i < 16, k = -512 + BitVec.ofNat 64 i) ↔
    ∀ i < 16, 16 % 256 ≤ i → StackState.new.checkReadable (-512 + BitVec.ofNat 64 i) 1 = true :=
  @helperOutput_readable_iff (bufferState 16) .new (StackState.new.markWritten (-512) 16) getComm _
    (-512) _ 16 0 0 0 none rfl rfl rfl rfl (by decide) (by decide) (by decide) (by decide) rfl

/-- A buffer of 256 bytes is filled and none of it marked. -/
theorem not_helperOutput_readable :
    ¬∀ (state : VerifierState) (stack stack' : StackState) (insn : BpfInsn) (helper : HelperSpec)
      (o n : BitVec 64) (state' : VerifierState) (pc idGen idGen' : ℕ) (loc : Option SourceLoc),
      getHelper insn.imm = some helper → helper.args[0]? = some (some .ptrToMem) →
      (state.get .r1).regType = .framePtr o → (state.get .r2).tnum.knownValue = some n →
      1 ≤ n.toNat → n.toNat ≤ 512 → -512 ≤ o.toInt → o.toInt + n.toNat ≤ 0 →
      checkCall state stack insn pc loc idGen = .ok (state', stack', idGen') →
      (∀ i < n.toNat, stack'.checkReadable (o + BitVec.ofNat 64 i) 1 = true) ∧
        ∀ k, stack'.checkReadable k 1 = true → stack.checkReadable k 1 = false →
          ∃ i < n.toNat, k = o + BitVec.ofNat 64 i := by
  intro hall
  have h := hall (bufferState 256) .new .new getComm _ (-512) 256 _ 0 0 0 none rfl rfl rfl rfl
    (by decide) (by decide) (by decide) (by decide) rfl
  exact absurd (h.1 0 (by decide)) (by decide)

end BpfVerifier
