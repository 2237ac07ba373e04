import BpfVerifier.Kverify.Stable
import BpfVerifier.Properties.Budget
import BpfVerifier.Soundness.Invariant

/-!
# Properties/Reports — where the errors of a walk come from

Every error a walk collects is the error of a visit, apart from the two the loop reports itself
(`report_cases`).  `Reported` lists what an instruction reports, with the parts of the state that
the report reads: where the register was written, and where its pointer was created.
-/

namespace BpfVerifier

open Loop

/-! ## What an instruction reports -/

/-- The kind names no instruction where a pointer was created. -/
def ErrorKind.Plain (kind : ErrorKind) : Prop :=
  ∀ reg originPc originLoc, kind = .nullPointerDeref reg originPc originLoc → originPc = none

/-- **The errors of an instruction**, by what they read of the state. -/
inductive Reported (pc : ℕ) (loc : Option SourceLoc) (locs : List (Option SourceLoc))
    (state : VerifierState) : VerifyError → Prop
  | plain {kind : ErrorKind} : kind.Plain →
      Reported pc loc locs state ((VerifyError.new pc kind).withSource loc)
  | outOfBounds (reg : Reg) (ptrKind : String) (off : BitVec 64) (width : ℕ) (size : BitVec 64) :
      Reported pc loc locs state
        (((VerifyError.new pc (.outOfBoundsAccess reg ptrKind off width size)).withSource
          loc).withOrigin (resolveOrigin (ptrOriginPc (state.get reg).regType) locs))
  | nullable {reg : Reg} {inner : RegType} {originPc : Option ℕ} {id : ℕ} :
      (state.get reg).regType = .ptrOrNull inner originPc id →
      Reported pc loc locs state ((VerifyError.new pc
        (.nullPointerDeref reg originPc (resolveOrigin originPc locs))).withSource loc)
  | scalar {reg : Reg} : (state.get reg).regType = .scalar →
      Reported pc loc locs state (((VerifyError.new pc
        (.invalidPointerDeref reg "scalar")).withSource loc).withRegProvenance
          (state.get reg).writtenAt)

section

variable {p : Program} {state : VerifierState} {stack : StackState} {insn : BpfInsn} {pc idGen : ℕ}
  {loc : Option SourceLoc} {locs : List (Option SourceLoc)} {e : VerifyError} {reg : Reg}
  {off : BitVec 64} {width : ℕ}

theorem Reported.of_plain {kind : ErrorKind} (hkind : kind.Plain)
    (h : some ((VerifyError.new pc kind).withSource loc) = some e) :
    Reported pc loc locs state e := Option.some.inj h ▸ .plain hkind

theorem reported_checkRegReadable (h : checkRegReadable state reg pc loc = some e) :
    Reported pc loc locs state e := by
  unfold checkRegReadable at h
  split at h
  · cases h
  · split at h
    · exact .of_plain (by simp [ErrorKind.Plain]) h
    · cases h

theorem reported_checkExit (h : checkExit state pc loc = some e) :
    Reported pc loc locs state e := by
  unfold checkExit at h
  dsimp only at h
  split at h
  · exact .of_plain (by simp [ErrorKind.Plain]) h
  · split at h
    · exact .of_plain (by simp [ErrorKind.Plain]) h
    · cases h

theorem reported_checkCall (h : checkCall state stack insn pc loc idGen = .error e) :
    Reported pc loc locs state e := by
  unfold checkCall at h
  split at h
  · exact .of_plain (by simp [ErrorKind.Plain]) (congrArg some (Except.error.inj h))
  · split at h
    · next hargs =>
      obtain rfl := Except.error.inj h
      obtain ⟨⟨⟨reg, expected⟩, i⟩, -, hbind⟩ := List.exists_of_findSome?_eq_some hargs
      obtain ⟨expected, -, harg⟩ := Option.bind_eq_some_iff.mp hbind
      unfold checkArg at harg
      dsimp only at harg
      split at harg
      · exact .of_plain (by simp [ErrorKind.Plain]) harg
      · split at harg
        · cases harg
        · exact .of_plain (by simp [ErrorKind.Plain]) harg
    · cases h

theorem reported_aluBinary {dst src : RegState} {op : AluOp} {is64 : Bool}
    (h : aluBinary dst src op is64 insn pc loc = .error e) : Reported pc loc locs state e := by
  unfold aluBinary at h
  dsimp only at h
  split at h
  · split at h
    · split at h
      · split at h
        · cases h
        · exact .of_plain (by simp [ErrorKind.Plain]) (congrArg some (Except.error.inj h))
      · cases h
    · exact .of_plain (by simp [ErrorKind.Plain]) (congrArg some (Except.error.inj h))
  · split at h
    · cases h
    · cases h

theorem reported_checkAlu {op : AluOp} {src : Source} {is64 : Bool}
    (h : checkAlu state insn op src is64 pc loc = .error e) : Reported pc loc locs state e := by
  unfold checkAlu at h
  dsimp only at h
  split at h
  · cases h
  · split at h
    · exact .of_plain (by simp [ErrorKind.Plain]) (congrArg some (Except.error.inj h))
    · cases h
  · split at h
    · exact .of_plain (by simp [ErrorKind.Plain]) (congrArg some (Except.error.inj h))
    · split at h
      · exact .of_plain (by simp [ErrorKind.Plain]) (congrArg some (Except.error.inj h))
      · split at h
        · next hbinary =>
          obtain rfl := Except.error.inj h
          exact reported_aluBinary hbinary
        · cases h

/-- An access reports through the register that holds its base. -/
theorem reported_accessError (h : accessError (state.get reg) reg off width pc loc locs = some e) :
    Reported pc loc locs state e := by
  unfold accessError at h
  dsimp only at h
  split at h
  · split at h
    · cases h
    · exact .of_plain (by simp [ErrorKind.Plain]) h
  · split at h
    · cases h
    · exact Option.some.inj h ▸ .outOfBounds reg _ _ _ _
  · split at h
    · cases h
    · exact .of_plain (by simp [ErrorKind.Plain]) h
  · split at h
    · cases h
    · exact Option.some.inj h ▸ .outOfBounds reg _ _ _ _
  · cases h
  · cases h
  · next hnull => exact Option.some.inj h ▸ .nullable hnull
  · exact .of_plain (by simp [ErrorKind.Plain]) h
  · next hscalar => exact Option.some.inj h ▸ .scalar hscalar
  · exact .of_plain (by simp [ErrorKind.Plain]) h

theorem reported_checkLoad {size : MemWidth}
    (h : checkLoad state stack insn size pc loc locs = .error e) :
    Reported pc loc locs state e := by
  unfold checkLoad at h
  dsimp only at h
  split at h
  · next hacc =>
    obtain rfl := Except.error.inj h
    exact reported_accessError hacc
  · split at h
    · next hinit =>
      obtain rfl := Except.error.inj h
      unfold uninitStackRead at hinit
      split at hinit
      · split at hinit
        · cases hinit
        · exact .of_plain (by simp [ErrorKind.Plain]) hinit
      · cases hinit
    · cases h

theorem reported_checkStore {size : MemWidth} {val : Option RegState}
    (h : checkStore state stack insn size val pc loc locs = .error e) :
    Reported pc loc locs state e := by
  unfold checkStore at h
  dsimp only at h
  split at h
  · exact .of_plain (by simp [ErrorKind.Plain]) (congrArg some (Except.error.inj h))
  · split at h
    · next hacc =>
      obtain rfl := Except.error.inj h
      exact reported_accessError hacc
    · cases h

theorem reported_requireReadable {regs : List Reg} {k : Outcome}
    (hk : k.error = some e → Reported pc loc locs state e)
    (h : (requireReadable state regs pc loc k).error = some e) : Reported pc loc locs state e := by
  unfold requireReadable at h
  split at h
  · next hread =>
    obtain rfl := Option.some.inj h
    obtain ⟨reg, -, hreg⟩ := List.exists_of_findSome?_eq_some hread
    exact reported_checkRegReadable hreg
  · exact hk h

theorem reported_jump {op : JmpOp} {src : Source} {is32 : Bool}
    (h : (jump p pc insn op src is32 state stack).error = some e) :
    Reported pc (p.loc pc) locs state e := by
  refine reported_requireReadable (fun h => ?_) h
  split at h
  · exact .of_plain (by simp [ErrorKind.Plain]) h
  · cases h

/-- **What an instruction reports** is one of the errors listed. -/
theorem reported_transfer (h : (transfer p pc insn state stack idGen).error = some e) :
    Reported pc (p.loc pc) p.sourceLocs state e := by
  unfold transfer at h
  dsimp only at h
  split at h
  · exact .of_plain (by simp [ErrorKind.Plain]) h
  · exact reported_checkExit h
  · exact reported_checkCall (error_ofExcept (fun _ => rfl) h)
  · split at h
    · cases h
    · exact .of_plain (by simp [ErrorKind.Plain]) h
  · exact reported_jump h
  · exact reported_jump h
  · exact reported_requireReadable
      (fun h => reported_checkAlu (error_ofExcept (fun _ => rfl) h)) h
  · exact reported_requireReadable
      (fun h => reported_checkAlu (error_ofExcept (fun _ => rfl) h)) h
  · cases h
  · exact reported_requireReadable
      (fun h => reported_checkLoad (error_ofExcept (fun _ => rfl) h)) h
  · exact reported_requireReadable
      (fun h => reported_checkStore (error_ofExcept (fun _ => rfl) h)) h
  · exact reported_requireReadable
      (fun h => reported_checkStore (error_ofExcept (fun _ => rfl) h)) h

end

/-! ## What a walk reports -/

variable {p : Program} {m : Walk}

/-- The errors collected so far are those of visits. -/
theorem Walk.errors_of_reaches (hr : Reaches (Walk.step p) .initial m) :
    ∀ e ∈ m.errors, ∃ v, p.Visits v ∧ (v.outcome p).error = some e := by
  induction hr with
  | start => exact fun e he => by cases he
  | @next m m' hr hs ih =>
    have hpass := Walk.pass p m
    rw [hs] at hpass
    generalize hc : Control.next m' = c at hpass
    cases hpass with
    | ended _ =>
      rw [(of_popOrBreak _ (Or.inl hc.symm)).1]
      exact ih
    | limit _ => cases hc
    | dominated _ _ _ =>
      rw [(of_popOrBreak _ (Or.inl hc.symm)).1]
      exact ih
    | @visit v hv _ =>
      obtain rfl := Control.next.inj hc
      intro e he
      rw [errors_follow, (recorded p m.counted v.pc).rest.1, List.mem_append,
        Option.mem_toList] at he
      exact he.elim (ih e) fun herr => ⟨v, ⟨m, hr, hv⟩, herr⟩

theorem mem_of_mem_dedupErrors {e : VerifyError} :
    ∀ {seen : List (ℕ × ℕ)} {es : List VerifyError}, e ∈ dedupErrors seen es → e ∈ es
  | _, [], h => by cases h
  | seen, e' :: es, h => by
    unfold dedupErrors at h
    dsimp only at h
    split at h
    · exact List.mem_cons_of_mem _ (mem_of_mem_dedupErrors h)
    · rcases List.mem_cons.mp h with rfl | h
      · exact List.mem_cons_self
      · exact List.mem_cons_of_mem _ (mem_of_mem_dedupErrors h)

/-- **Every error of a report** is that of a visit, the missing EXIT, or the budget exceeded where
the walk stands. -/
theorem report_cases {e : VerifyError} (h : e ∈ (checkWithRelocs p).errors) :
    (∃ v, p.Visits v ∧ (v.outcome p).error = some e) ∨ e = VerifyError.new 0 .fallThrough ∨
      ∃ m pc insn, Reaches (Walk.step p) .initial m ∧ m.current p = some (pc, insn) ∧
        e = VerifyError.new pc (.complexityExceeded COMPLEXITY_LIMIT (m.totalVisited + 1)) := by
  unfold checkWithRelocs at h
  split at h
  · exact Or.inr (Or.inl (List.mem_singleton.mp h))
  · have hfuel : Walk.initial.measure < LOOP_FUEL := by decide
    obtain ⟨m, hr, hhalt⟩ := exists_halt (fun m _ => Walk.measure_step p m) LOOP_FUEL _ hfuel
    generalize iterate (Walk.step p) LOOP_FUEL .initial = final at h hhalt
    have hquiet (he : e ∈ m.errors) := Walk.errors_of_reaches hr e he
    have hreport : e ∈ final.errors ∨ e = VerifyError.new 0 .fallThrough := by
      have hmem := mem_of_mem_dedupErrors h
      unfold Walk.report at hmem
      split at hmem
      · exact (List.mem_append.mp hmem).imp_right List.mem_singleton.mp
      · exact Or.inl hmem
    rcases hreport with he | rfl
    · unfold Walk.step at hhalt
      split at hhalt
      · rw [(Walk.of_popOrBreak _ (Or.inr hhalt)).1] at he
        exact Or.inl (hquiet he)
      · next pc insn hcur =>
        dsimp only at hhalt
        split at hhalt
        · obtain rfl := Control.halt.inj hhalt
          rcases List.mem_append.mp he with he | he
          · exact Or.inl (hquiet he)
          · exact Or.inr (Or.inr ⟨m, pc, insn, hr, hcur, List.mem_singleton.mp he⟩)
        · split at hhalt
          · rw [(Walk.of_popOrBreak _ (Or.inr hhalt)).1] at he
            exact Or.inl (hquiet he)
          · cases hhalt
    · exact Or.inr (Or.inl rfl)

/-! ## The graph -/

/-- An edge of the control-flow graph. -/
def Program.Edge (p : Program) (pc pc' : ℕ) : Prop :=
  ∃ insn, p.instructions[pc]? = some insn ∧ pc' ∈ p.cfgSucc pc insn

/-- An instruction on a path from the entry. -/
def Program.Reachable (p : Program) (pc : ℕ) : Prop := Relation.ReflTransGen p.Edge 0 pc

/-- **A write of a register that reaches an instruction**: it is on a path from the entry, and some
path leads from it to the instruction without writing the register again. -/
inductive Program.ReachingWrite (p : Program) (r : Reg) (w : ℕ) : ℕ → Prop
  | written {insn : BpfInsn} {pc : ℕ} : p.Reachable w → p.instructions[w]? = some insn →
      insn.writes r → pc ∈ p.cfgSucc w insn → ReachingWrite p r w pc
  | kept {insn : BpfInsn} {pc pc' : ℕ} : ReachingWrite p r w pc →
      p.instructions[pc]? = some insn → ¬insn.writes r → pc' ∈ p.cfgSucc pc insn →
      ReachingWrite p r w pc'

/-- **A call that returns a nullable pointer**, on a path from the entry that goes on to an
instruction. -/
def Program.Creates (p : Program) (origin pc : ℕ) : Prop :=
  p.Reachable origin ∧ Relation.ReflTransGen p.Edge origin pc ∧
    ∃ insn helper, p.instructions[origin]? = some insn ∧ insn.opcode = .call ∧
      getHelper insn.imm = some helper ∧ (helper.retType = .mapPtr ∨ helper.retType = .ringBufPtr)

/-- The instructions a type names as where its pointers were created. -/
def RegType.origins : RegType → List ℕ
  | .mapValuePtr _ _ _ originPc => [originPc]
  | .ringBufPtr _ _ _ originPc => [originPc]
  | .ptrOrNull inner originPc _ => originPc.toList ++ inner.origins
  | _ => []

/-! ## Where pointers are created -/

/-- A register whose pointers were created on the way to an instruction. -/
structure Program.Created (p : Program) (pc : ℕ) (r : RegState) : Prop where
  tnum : r.tnum.Wf
  origins : ∀ o ∈ r.regType.origins, p.Creates o pc

theorem ptrOriginPc_mem {t : RegType} {o : ℕ} (h : ptrOriginPc t = some o) : o ∈ t.origins := by
  cases t with
  | mapValuePtr id off size originPc => exact List.mem_singleton.mpr (Option.some.inj h).symm
  | ringBufPtr id off size originPc => exact List.mem_singleton.mpr (Option.some.inj h).symm
  | ptrOrNull inner originPc id =>
    have h : originPc = some o := h
    rw [RegType.origins, h]
    exact List.mem_cons_self
  | _ => cases h

theorem origins_shiftPtr (t : RegType) (delta : Option (BitVec 64)) :
    (shiftPtr t delta).origins ⊆ t.origins := by
  unfold shiftPtr
  split <;> simp [RegType.origins]

theorem created_unbounded {t : RegType} {pc : ℕ} (h : ∀ o ∈ t.origins, p.Creates o pc) :
    p.Created pc (.unbounded t) := ⟨Tnum.wf_unknown, h⟩

/-- A null test leaves no new origins. -/
theorem Program.Created.refineWithId {pc id : ℕ} {t : RegType} {r : RegState}
    (h : p.Created pc r) (ht : ∀ o ∈ t.origins, p.Creates o pc) :
    p.Created pc (refineWithId id t r) := by
  unfold BpfVerifier.refineWithId
  split
  · split
    · split
      · exact ⟨Tnum.wf_constant 0, fun o ho => by cases ho⟩
      · exact ⟨h.tnum, ht⟩
    · exact h
  · exact h

theorem kept_created (p : Program) (pc : ℕ) : Kept (p.Created pc) where
  tnum h := h.tnum
  scalar hs ht := ⟨ht, by simp [hs, RegType.origins]⟩
  uninit := created_unbounded fun o ho => by cases ho
  kernelPtr := created_unbounded fun o ho => by cases ho
  dataPtr _ := created_unbounded fun o ho => by cases ho
  written _ h := ⟨h.tnum, h.origins⟩
  resolved hq ht hr := by
    have horigins := hq.origins
    rw [ht] at horigins
    exact ⟨hr.refineWithId (fun o ho => by cases ho),
      hr.refineWithId (fun o ho => horigins o (List.mem_append_right _ ho))⟩

/-- Pointers created on the way to an instruction were created on the way to its successors. -/
theorem Program.Created.edge {pc pc' : ℕ} {r : RegState} (h : p.Created pc r)
    (hedge : p.Edge pc pc') : p.Created pc' r :=
  ⟨h.tnum, fun o ho => ⟨(h.origins o ho).1, (h.origins o ho).2.1.tail hedge, (h.origins o ho).2.2⟩⟩

/-! ## Where registers are written -/

/-- Whatever one register says of where it was written, another does. -/
def WrittenAs (r' r : RegState) : Prop := ∀ w, r'.writtenAt = some w → r.writtenAt = some w

theorem writtenAs_refl (r : RegState) : WrittenAs r r := fun _ h => h

theorem writtenAs_of_none {r' r : RegState} (h : r'.writtenAt = none) : WrittenAs r' r :=
  fun w hw => by simp [h] at hw

@[simp] theorem writtenAt_refineBounds (r : RegState) :
    r.refineBounds.writtenAt = r.writtenAt := by
  have hcollapse (r : RegState) : r.refineCollapse.writtenAt = r.writtenAt := by
    unfold RegState.refineCollapse
    split <;> rfl
  have hunsigned (r : RegState) : r.refineUnsigned.writtenAt = r.writtenAt := by
    unfold RegState.refineUnsigned
    split <;> rfl
  have hsigned (r : RegState) : r.refineSigned.writtenAt = r.writtenAt := by
    unfold RegState.refineSigned
    split <;> rfl
  have htnum (r : RegState) : r.refineTnum.writtenAt = r.writtenAt := by
    unfold RegState.refineTnum
    split <;> rfl
  rw [RegState.refineBounds, hcollapse, hunsigned, hsigned, htnum]
  rfl

theorem writtenAs_widen (r r' : RegState) : WrittenAs (r.widen r') r := by
  unfold RegState.widen
  split
  · split
    · exact writtenAs_of_none rfl
    · exact writtenAs_refl r
  · split
    · exact writtenAs_of_none (by rw [writtenAt_refineBounds]; rfl)
    · split
      · exact writtenAs_refl r
      · exact writtenAs_of_none rfl

theorem writtenAs_refineWithId (id : ℕ) (t : RegType) (r : RegState) :
    WrittenAs (refineWithId id t r) r := by
  unfold refineWithId
  split
  · split
    · split
      · exact writtenAs_of_none rfl
      · exact writtenAs_refl r
    · exact writtenAs_refl r
  · exact writtenAs_refl r

theorem writtenAs_refineBounds {r' r : RegState} (h : r'.writtenAt = r.writtenAt) :
    WrittenAs r'.refineBounds r := fun w hw => by rwa [writtenAt_refineBounds, h] at hw

theorem writtenAs_refineScalar64 (ts fs : RegState) (op : JmpOp) (val : BitVec 64) :
    WrittenAs (refineScalar64 ts fs op val).1 ts ∧
      WrittenAs (refineScalar64 ts fs op val).2 fs := by
  cases op with
  | jeq =>
    simp only [refineScalar64]
    exact ⟨writtenAs_of_none rfl, writtenAs_refl fs⟩
  | jne =>
    simp only [refineScalar64]
    exact ⟨writtenAs_refl ts, writtenAs_of_none rfl⟩
  | ja =>
    simp only [refineScalar64]
    exact ⟨writtenAs_refl ts, writtenAs_refl fs⟩
  | jset =>
    simp only [refineScalar64]
    refine ⟨?_, writtenAs_refineBounds rfl⟩
    split
    · exact writtenAs_refineBounds rfl
    · exact writtenAs_refl ts
  | _ =>
    simp only [refineScalar64]
    exact ⟨writtenAs_refineBounds rfl, writtenAs_refineBounds rfl⟩

theorem writtenAt_clamp (r : RegState) (lo hi : BitVec 64) :
    (clampU32Bounds r lo hi).writtenAt = r.writtenAt ∧
      (clampU32BoundsMin r lo).writtenAt = r.writtenAt ∧
      (clampU32BoundsMax r hi).writtenAt = r.writtenAt ∧
      (clampS32Min r lo).writtenAt = r.writtenAt ∧ (clampS32Max r hi).writtenAt = r.writtenAt := by
  unfold clampU32Bounds clampU32BoundsMin clampU32BoundsMax clampS32Min clampS32Max
  by_cases h : r.umax.ule U32_MAX = true
  · simp only [if_pos h, writtenAt_refineBounds, and_self]
  · simp only [if_neg h, and_self]

theorem writtenAs_refineScalar32 (ts fs : RegState) (op : JmpOp) (val : BitVec 64) :
    WrittenAs (refineScalar32 ts fs op val).1 ts ∧
      WrittenAs (refineScalar32 ts fs op val).2 fs := by
  have hmin (r : RegState) (lo : BitVec 64) : WrittenAs (clampU32BoundsMin r lo).refineBounds r :=
    writtenAs_refineBounds (writtenAt_clamp r lo lo).2.1
  have hmax (r : RegState) (hi : BitVec 64) : WrittenAs (clampU32BoundsMax r hi).refineBounds r :=
    writtenAs_refineBounds (writtenAt_clamp r hi hi).2.2.1
  have hsmin (r : RegState) (lo : BitVec 64) : WrittenAs (clampS32Min r lo) r :=
    fun w hw => by rwa [(writtenAt_clamp r lo lo).2.2.2.1] at hw
  have hsmax (r : RegState) (hi : BitVec 64) : WrittenAs (clampS32Max r hi) r :=
    fun w hw => by rwa [(writtenAt_clamp r hi hi).2.2.2.2] at hw
  have hpin (r : RegState) (v : BitVec 64) : WrittenAs (pinLow32 r v) r :=
    writtenAs_refineBounds (writtenAt_clamp _ v v).1
  cases op <;> simp only [refineScalar32]
  case jeq => exact ⟨hpin ts _, writtenAs_refl fs⟩
  case jne => exact ⟨writtenAs_refl ts, hpin fs _⟩
  case ja => exact ⟨writtenAs_refl ts, writtenAs_refl fs⟩
  case jgt => exact ⟨hmin ts _, hmax fs _⟩
  case jge => exact ⟨hmin ts _, hmax fs _⟩
  case jlt => exact ⟨hmax ts _, hmin fs _⟩
  case jle => exact ⟨hmax ts _, hmin fs _⟩
  case jsgt => exact ⟨hsmin ts _, hsmax fs _⟩
  case jsge => exact ⟨hsmin ts _, hsmax fs _⟩
  case jslt => exact ⟨hsmax ts _, hsmin fs _⟩
  case jsle => exact ⟨hsmax ts _, hsmin fs _⟩
  case jset =>
    constructor
    · split
      · refine writtenAs_refineBounds ?_
        split <;> rfl
      · exact writtenAs_refl ts
    · refine writtenAs_refineBounds ?_
      split <;> rfl

/-- No branch says anything new of where a register was written. -/
theorem writtenAs_refineBranch (state : VerifierState) (stack : StackState) (insn : BpfInsn)
    (op : JmpOp) (src : Source) (is32 : Bool) (r : Reg) :
    let b := refineBranch ⟨state, stack, state, stack⟩ insn op src is32
    WrittenAs (b.taken.get r) (state.get r) ∧ WrittenAs (b.fall.get r) (state.get r) := by
  have hsame := writtenAs_refl (state.get r)
  have hid (id : ℕ) (t : RegType) := writtenAs_refineWithId id t (state.get r)
  unfold refineBranch
  split
  · split
    · unfold refineNull
      split
      · exact ⟨hid _ _, hid _ _⟩
      · exact ⟨hid _ _, hid _ _⟩
      · exact ⟨hsame, hsame⟩
    · exact ⟨hsame, hsame⟩
  · unfold refineScalar
    by_cases hr : r = insn.dst
    · subst hr
      cases is32 with
      | false => simpa using writtenAs_refineScalar64 (state.get insn.dst) (state.get insn.dst) op _
      | true => simpa using writtenAs_refineScalar32 (state.get insn.dst) (state.get insn.dst) op _
    · simp only [VerifierState.get_set_of_ne _ _ hr]
      exact ⟨hsame, hsame⟩
  · exact ⟨hsame, hsame⟩

theorem writtenAt_callReturn (state : VerifierState) (ret : HelperReturn) (pc id : ℕ) :
    (callReturn state ret pc id).1.writtenAt = none := by
  cases ret <;> rfl

/-! ## The invariant -/

/-- **Where the state at an instruction comes from**: a path leads to it, the registers are written
where it says, and the pointers created. -/
structure Program.Sourced (p : Program) (pc : ℕ) (state : VerifierState) (stack : StackState) :
    Prop where
  reached : p.Reachable pc
  written : ∀ r w, (state.get r).writtenAt = some w → p.ReachingWrite r w pc
  created : Everywhere (p.Created pc) state stack

section

variable {pc idGen : ℕ} {insn : BpfInsn} {state : VerifierState} {stack : StackState} {o : Outcome}

/-- What an accepted instruction leaves to explore is at its successors in the graph. -/
theorem Accepts.mem_cfgSucc (h : Accepts p pc insn state stack idGen o) :
    ∀ i ∈ o.successors, i.pc ∈ p.cfgSucc pc insn := by
  intro i hi
  unfold Program.cfgSucc
  cases h with
  | exit _ _ => cases hi
  | call hop _ _ =>
    obtain rfl := List.mem_singleton.mp hi
    simp [hop]
  | ja hop ht =>
    obtain rfl := List.mem_singleton.mp hi
    simp [hop, ht]
  | jmp is32 hop _ ht =>
    have hpc : i.pc = pc + 1 ∨ p.target pc insn = some i.pc := by
      rcases List.mem_cons.mp hi with rfl | hi
      · exact Or.inl rfl
      · obtain rfl := List.mem_singleton.mp hi
        exact Or.inr ht
    cases is32 <;> simpa [hop] using hpc
  | alu is64 hop _ _ =>
    obtain rfl := List.mem_singleton.mp hi
    cases is64 <;> simp [hop]
  | ldImm64 hop =>
    obtain rfl := List.mem_singleton.mp hi
    simp [hop]
  | ldx hop _ _ _ =>
    obtain rfl := List.mem_singleton.mp hi
    simp [hop]
  | stx hop _ _ _ _ =>
    obtain rfl := List.mem_singleton.mp hi
    simp [hop]
  | st hop _ _ =>
    obtain rfl := List.mem_singleton.mp hi
    simp [hop]

/-- **A register says it was written here, or what it said before**, and then it is not written. -/
theorem Accepts.writtenAt (h : Accepts p pc insn state stack idGen o) :
    ∀ i ∈ o.successors, ∀ r w, (i.state.get r).writtenAt = some w →
      (w = pc ∧ insn.writes r) ∨ ((state.get r).writtenAt = some w ∧ ¬insn.writes r) := by
  intro i hi r w hw
  -- a register set here, and the others as they were
  have hset {dst : Reg} {v : RegState} (hv : ((state.setAt dst v pc).get r).writtenAt = some w)
      (hwrites : insn.writes r ↔ r = dst) :
      (w = pc ∧ insn.writes r) ∨ ((state.get r).writtenAt = some w ∧ ¬insn.writes r) := by
    rw [VerifierState.get_setAt] at hv
    split at hv
    · next heq => exact Or.inl ⟨(Option.some.inj hv).symm, hwrites.mpr heq⟩
    · next hne => exact Or.inr ⟨hv, mt hwrites.mp hne⟩
  unfold BpfInsn.writes at *
  cases h with
  | exit _ _ => cases hi
  | call hop _ _ =>
    obtain rfl := List.mem_singleton.mp hi
    rw [hop]
    rw [get_clobber] at hw
    split at hw
    · cases hw
    · next harg =>
      rw [VerifierState.get_set] at hw
      split at hw
      · rw [writtenAt_callReturn] at hw
        cases hw
      · next hr0 => exact Or.inr ⟨hw, fun hr => hr.elim hr0 harg⟩
  | ja hop ht =>
    obtain rfl := List.mem_singleton.mp hi
    simp [hop] at hw ⊢
    exact hw
  | @jmp op src t is32 hop _ ht =>
    obtain ⟨htaken, hfall⟩ := writtenAs_refineBranch state stack insn op src is32 r
    have hquiet : (state.get r).writtenAt = some w := by
      rcases List.mem_cons.mp hi with rfl | hi
      · exact hfall w hw
      · obtain rfl := List.mem_singleton.mp hi
        exact htaken w hw
    refine Or.inr ⟨hquiet, ?_⟩
    cases is32 <;> simp [hop]
  | alu is64 hop _ hok =>
    obtain rfl := List.mem_singleton.mp hi
    obtain ⟨v, -, rfl⟩ := checkAlu_eq_ok hok
    refine hset hw ?_
    cases is64 <;> simp [hop]
  | ldImm64 hop =>
    obtain rfl := List.mem_singleton.mp hi
    have hwrites : insn.writes r ↔ r = insn.dst := by simp [BpfInsn.writes, hop]
    unfold BpfInsn.writes at hwrites
    unfold loadImm64 at hw
    split at hw
    · exact hset hw hwrites
    · -- a data symbol is loaded by `set`, which does not say where
      rw [VerifierState.get_set] at hw
      split at hw
      · cases hw
      · next hne => exact Or.inr ⟨hw, mt hwrites.mp hne⟩
    · exact hset hw hwrites
    · exact hset hw hwrites
  | ldx hop _ _ _ =>
    obtain rfl := List.mem_singleton.mp hi
    exact hset hw (by simp [hop])
  | stx hop _ _ _ _ =>
    obtain rfl := List.mem_singleton.mp hi
    simp [hop] at hw ⊢
    exact hw
  | st hop _ _ =>
    obtain rfl := List.mem_singleton.mp hi
    simp [hop] at hw ⊢
    exact hw

/-- The pointers a visit leaves were created on the way to it, or by it. -/
theorem Accepts.created (h : Accepts p pc insn state stack idGen o)
    (hinsn : p.instructions[pc]? = some insn) (hreach : p.Reachable pc)
    (hs : Everywhere (p.Created pc) state stack) :
    ∀ i ∈ o.successors, Everywhere (p.Created pc) i.state i.stack := by
  refine h.everywhere (kept_created p pc) hs ?_ ?_
  · intro op src is64 r _ hr
    refine hs.aluResult (kept_created p pc) hr fun t delta hmove => ?_
    refine created_unbounded fun o' ho => ?_
    have ho' := origins_shiftPtr t delta ho
    cases hmove with
    | shift _ _ _ => exact (hs.regs insn.dst).origins o' ho'
    | swap _ hsrc _ =>
      cases src with
      | imm => cases hsrc
      | reg => exact (hs.regs insn.src).origins o' ho'
  · intro ret hret
    -- only a call that returns a nullable pointer hands out an id
    have hcreates (hid : o.nextId idGen = idGen + 1) : p.Creates pc pc := by
      cases h with
      | @call helper hop hhelper _ =>
        refine ⟨hreach, .refl, insn, helper, hinsn, hop, hhelper, ?_⟩
        generalize helper.retType = ret' at hid
        cases ret' with
        | mapPtr => exact Or.inl rfl
        | ringBufPtr => exact Or.inr rfl
        | _ => exact absurd hid (Nat.ne_of_lt idGen.lt_succ_self)
      | _ => exact absurd hid (Nat.ne_of_lt idGen.lt_succ_self)
    cases ret with
    | mapPtr =>
      refine created_unbounded fun o' ho => ?_
      obtain rfl : o' = pc := by simpa [RegType.origins] using ho
      exact hcreates hret.symm
    | ringBufPtr =>
      refine created_unbounded fun o' ho => ?_
      obtain rfl : o' = pc := by simpa [RegType.origins] using ho
      exact hcreates hret.symm
    | kernelPtr => exact (kept_created p pc).kernelPtr
    | _ => exact (kept_created p pc).scalarUnknown

end

/-- **The walk says where its states come from.** -/
theorem stable_sourced (p : Program) : p.Stable p.Sourced where
  entry := by
    refine ⟨.refl, fun r w hw => ?_, ?_⟩
    · cases r <;> cases hw
    · exact everywhere_entry (kept_created p 0) (created_unbounded fun o ho => by cases ho)
        (created_unbounded fun o ho => by cases ho)
  widen h h' := by
    refine ⟨h.reached, fun r w hw => h.written r w ?_,
      h.created.widen (kept_created p _) h'.created⟩
    exact writtenAs_widen _ _ w hw
  successors {v} hinsn h i hi := by
    cases herr : (v.outcome p).error with
    | some e =>
      cases ho : v.outcome p with
      | fail _ | exit _ => simp [ho, Outcome.successors] at hi
      | _ => simp [ho, Outcome.error] at herr
    | none =>
      have hacc := Visit.accepts herr
      have hsucc := hacc.mem_cfgSucc i hi
      have hedge : p.Edge v.pc i.pc := ⟨v.insn, hinsn, hsucc⟩
      refine ⟨h.reached.tail hedge, fun r w hw => ?_, ?_⟩
      · rcases hacc.writtenAt i hi r w hw with ⟨rfl, hwrites⟩ | ⟨hold, hkeeps⟩
        · exact .written h.reached hinsn hwrites hsucc
        · exact .kept (h.written r w hold) hinsn hkeeps hsucc
      · exact (hacc.created hinsn h.reached h.created i hi).imp fun r hr => hr.edge hedge

/-! ## Every report is anchored in the program -/

/-- The visit an error comes from, with what is known of its state. -/
theorem Reported.anchored {v : Visit} {e : VerifyError} (h : p.Sourced v.pc v.state v.stack)
    (he : Reported v.pc (p.loc v.pc) p.sourceLocs v.state e) :
    e.pc = v.pc ∧ e.sourceLoc = p.loc v.pc ∧ ∀ w, e.regWrittenAt = some w →
      ∃ reg, e.kind = .invalidPointerDeref reg "scalar" ∧ p.ReachingWrite reg w v.pc := by
  cases he with
  | @scalar reg _ => exact ⟨rfl, rfl, fun w hw => ⟨reg, rfl, h.written reg w hw⟩⟩
  | _ => exact ⟨rfl, rfl, fun w hw => by cases hw⟩

/-- **Every error of a report is anchored in the program**: it is the missing EXIT, or the budget
spent at an instruction on a path from the entry, or it stands at an instruction on such a path,
with that instruction's line; and where it says which instruction wrote the offending scalar, that
write reaches it. -/
theorem report_anchored {e : VerifyError} (h : e ∈ (checkWithRelocs p).errors) :
    e = VerifyError.new 0 .fallThrough ∨
      (p.Reachable e.pc ∧
        ∃ n, e = VerifyError.new e.pc (.complexityExceeded COMPLEXITY_LIMIT n)) ∨
      (p.Reachable e.pc ∧ e.pc < p.instructions.length ∧ e.sourceLoc = p.loc e.pc ∧
        ∀ w, e.regWrittenAt = some w →
          ∃ reg, e.kind = .invalidPointerDeref reg "scalar" ∧ p.ReachingWrite reg w e.pc) := by
  rcases report_cases h with ⟨v, hv, herr⟩ | rfl | ⟨m, pc, insn, hr, hcur, rfl⟩
  · have hsourced := (stable_sourced p).of_visits hv
    obtain ⟨hpc, hloc, hwritten⟩ := (reported_transfer herr).anchored hsourced
    obtain ⟨m, -, hvisit⟩ := hv
    have hinsn := (Walk.of_current p m (Walk.of_visit p m hvisit).1).2
    rw [hpc]
    exact Or.inr (Or.inr ⟨hsourced.reached, (List.getElem?_eq_some_iff.mp hinsn).1, hloc, hwritten⟩)
  · exact Or.inl rfl
  · have hhere : (⟨pc, m.state, m.stack⟩ : WorkItem) ∈ m.pending := by
      refine List.mem_append_left _ ?_
      rw [Walk.here_of_current p m hcur]
      exact List.mem_singleton.mpr rfl
    have hsourced := ((stable_sourced p).of_reaches hr).pending _ hhere
    exact Or.inr (Or.inl ⟨hsourced.reached, _, rfl⟩)

/-- `r2 = 7; r0 = *(u64 *)(r2 + 0); exit`. -/
def readsScalar : Program := .ofInsns [.aluImm .mov .r2 7, .load .dw .r0 .r2 0, .ret]

theorem report_anchored_readsScalar : readsScalar.ReachingWrite .r2 0 1 := by
  obtain h | ⟨-, n, h⟩ | ⟨-, -, -, h⟩ := report_anchored (p := readsScalar)
    (e := ⟨1, .invalidPointerDeref .r2 "scalar", none, none, some 0⟩) (by decide +kernel)
  · cases h
  · cases h
  · obtain ⟨reg, hkind, hwrite⟩ := h 0 rfl
    obtain ⟨rfl, -⟩ := ErrorKind.invalidPointerDeref.inj hkind
    exact hwrite

/-- **An error that says where a pointer was created says it of a call**: one on a path from the
entry that leads on to the error, and that returns a map value or a ring buffer; and the line is
that of the call. -/
theorem report_origins {e : VerifyError} (h : e ∈ (checkWithRelocs p).errors) :
    (∀ reg o loc, e.kind = .nullPointerDeref reg (some o) loc →
        loc = p.loc o ∧ p.Creates o e.pc) ∧
      ∀ loc, e.originLoc = some loc → ∃ o, p.loc o = some loc ∧ p.Creates o e.pc := by
  rcases report_cases h with ⟨v, hv, herr⟩ | rfl | ⟨m, pc, insn, hr, hcur, rfl⟩
  · have hsourced := (stable_sourced p).of_visits hv
    cases reported_transfer herr with
    | plain hkind =>
      exact ⟨fun reg o loc hk => (by cases hkind _ _ _ hk), fun loc hloc => by cases hloc⟩
    | outOfBounds reg ptrKind off width size =>
      refine ⟨fun reg o loc hk => (by cases hk), fun loc hloc => ?_⟩
      obtain ⟨o, ho, hloc⟩ := Option.bind_eq_some_iff.mp hloc
      exact ⟨o, hloc, (hsourced.created.regs reg).origins o (ptrOriginPc_mem ho)⟩
    | @nullable reg inner originPc id htype =>
      refine ⟨fun reg' o loc hk => ?_, fun loc hloc => by cases hloc⟩
      obtain ⟨rfl, rfl, rfl⟩ := ErrorKind.nullPointerDeref.inj hk
      have ho : o ∈ (v.state.get reg).regType.origins := by
        rw [htype]
        exact List.mem_cons_self
      exact ⟨rfl, (hsourced.created.regs reg).origins o ho⟩
    | scalar _ => exact ⟨fun reg o loc hk => (by cases hk), fun loc hloc => by cases hloc⟩
  · exact ⟨fun reg o loc hk => (by cases hk), fun loc hloc => by cases hloc⟩
  · exact ⟨fun reg o loc hk => (by cases hk), fun loc hloc => by cases hloc⟩

/-- `r0 = bpf_map_lookup_elem(0, fp); r0 = *(u64 *)(r0 + 0); exit`. -/
def looksUpUnchecked : Program :=
  .ofInsns [.aluImm .mov .r1 0, .aluReg .mov .r2 .r10, .callHelper 1, .load .dw .r0 .r0 0, .ret]

theorem report_origins_looksUpUnchecked : looksUpUnchecked.Creates 2 3 :=
  ((report_origins (p := looksUpUnchecked)
    (e := ⟨3, .nullPointerDeref .r0 (some 2) none, none, none, none⟩) (by decide +kernel)).1
      .r0 2 none rfl).2

end BpfVerifier
