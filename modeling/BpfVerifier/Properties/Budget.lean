import BpfVerifier.Cfg.Paths
import BpfVerifier.Kverify.Coverage
import BpfVerifier.Kverify.Debug
import BpfVerifier.Soundness.Alu

/-!
# Properties/Budget — the verifier ends within its budget

Every pass of the loop visits an instruction or takes back a deferred branch, and a visit defers at
most one (`Walk.measure`): so the loop ends, inside its arrays, and reports that its budget is
exceeded exactly when it has made one visit more than the budget allows (`checkWithRelocs_budget`).
With overflow checks it gets there unless a shift panics on the way (`keepsBudget_iff`).
-/

namespace BpfVerifier

open Loop

/-! ## No check reports the budget -/

namespace VerifyError

@[simp] theorem kind_new (pc : ℕ) (kind : ErrorKind) : (new pc kind).kind = kind := rfl

@[simp] theorem kind_withSource (e : VerifyError) (loc : Option SourceLoc) :
    (e.withSource loc).kind = e.kind := rfl

@[simp] theorem kind_withOrigin (e : VerifyError) (loc : Option SourceLoc) :
    (e.withOrigin loc).kind = e.kind := rfl

@[simp] theorem kind_withRegProvenance (e : VerifyError) (writtenAt : Option ℕ) :
    (e.withRegProvenance writtenAt).kind = e.kind := rfl

end VerifyError

section

variable {p : Program} {state : VerifierState} {stack : StackState} {insn : BpfInsn} {pc idGen : ℕ}
  {loc : Option SourceLoc} {locs : List (Option SourceLoc)} {e : VerifyError} {reg : Reg}
  {base : RegState} {off : BitVec 64} {width : ℕ}

theorem isComplexity_checkRegReadable (h : checkRegReadable state reg pc loc = some e) :
    e.kind.isComplexity = false := by
  unfold checkRegReadable at h
  split at h
  · cases h
  · split at h
    · obtain rfl := Option.some.inj h
      rfl
    · cases h

theorem isComplexity_checkExit (h : checkExit state pc loc = some e) :
    e.kind.isComplexity = false := by
  unfold checkExit at h
  dsimp only at h
  split at h
  · obtain rfl := Option.some.inj h
    rfl
  · split at h
    · obtain rfl := Option.some.inj h
      rfl
    · cases h

theorem isComplexity_checkArg {helper : HelperSpec} {i : ℕ} {expected : ArgType}
    (h : checkArg state pc loc helper i reg expected = some e) : e.kind.isComplexity = false := by
  unfold checkArg at h
  dsimp only at h
  split at h
  · obtain rfl := Option.some.inj h
    rfl
  · split at h
    · cases h
    · obtain rfl := Option.some.inj h
      rfl

theorem isComplexity_checkCall (h : checkCall state stack insn pc loc idGen = .error e) :
    e.kind.isComplexity = false := by
  unfold checkCall at h
  split at h
  · obtain rfl := Except.error.inj h
    rfl
  · split at h
    · next e' hargs =>
      obtain rfl := Except.error.inj h
      obtain ⟨⟨⟨reg, expected⟩, i⟩, -, hbind⟩ := List.exists_of_findSome?_eq_some hargs
      obtain ⟨expected, -, harg⟩ := Option.bind_eq_some_iff.mp hbind
      exact isComplexity_checkArg harg
    · cases h

theorem isComplexity_aluBinary {dst src : RegState} {op : AluOp} {is64 : Bool}
    (h : aluBinary dst src op is64 insn pc loc = .error e) : e.kind.isComplexity = false := by
  unfold aluBinary at h
  dsimp only at h
  split at h
  · split at h
    · split at h
      · split at h
        · cases h
        · obtain rfl := Except.error.inj h
          rfl
      · cases h
    · obtain rfl := Except.error.inj h
      rfl
  · split at h
    · cases h
    · cases h

theorem isComplexity_checkAlu {op : AluOp} {src : Source} {is64 : Bool}
    (h : checkAlu state insn op src is64 pc loc = .error e) : e.kind.isComplexity = false := by
  unfold checkAlu at h
  dsimp only at h
  split at h
  · cases h
  · split at h
    · obtain rfl := Except.error.inj h
      rfl
    · cases h
  · split at h
    · obtain rfl := Except.error.inj h
      rfl
    · split at h
      · obtain rfl := Except.error.inj h
        rfl
      · split at h
        · next hbinary =>
          obtain rfl := Except.error.inj h
          exact isComplexity_aluBinary hbinary
        · cases h

theorem isComplexity_accessError (h : accessError base reg off width pc loc locs = some e) :
    e.kind.isComplexity = false := by
  unfold accessError at h
  dsimp only at h
  split at h
  · split at h
    · cases h
    · obtain rfl := Option.some.inj h
      rfl
  · split at h
    · cases h
    · obtain rfl := Option.some.inj h
      rfl
  · split at h
    · cases h
    · obtain rfl := Option.some.inj h
      rfl
  · split at h
    · cases h
    · obtain rfl := Option.some.inj h
      rfl
  · cases h
  · cases h
  all_goals
    obtain rfl := Option.some.inj h
    rfl

theorem isComplexity_checkLoad {size : MemWidth}
    (h : checkLoad state stack insn size pc loc locs = .error e) : e.kind.isComplexity = false := by
  unfold checkLoad at h
  dsimp only at h
  split at h
  · next hacc =>
    obtain rfl := Except.error.inj h
    exact isComplexity_accessError hacc
  · split at h
    · next hinit =>
      obtain rfl := Except.error.inj h
      unfold uninitStackRead at hinit
      split at hinit
      · split at hinit
        · cases hinit
        · obtain rfl := Option.some.inj hinit
          rfl
      · cases hinit
    · cases h

theorem isComplexity_checkStore {size : MemWidth} {val : Option RegState}
    (h : checkStore state stack insn size val pc loc locs = .error e) :
    e.kind.isComplexity = false := by
  unfold checkStore at h
  dsimp only at h
  split at h
  · obtain rfl := Except.error.inj h
    rfl
  · split at h
    · next hacc =>
      obtain rfl := Except.error.inj h
      exact isComplexity_accessError hacc
    · cases h

/-- An error reported before going on is the check's. -/
theorem error_ofExcept {α : Type} {r : Except VerifyError α} {k : α → Outcome}
    (hk : ∀ a, (k a).error = none) (h : (Outcome.ofExcept r k).error = some e) : r = .error e := by
  cases r with
  | error e' =>
    obtain rfl := Option.some.inj h
    rfl
  | ok a =>
    have hnone := hk a
    rw [show (k a).error = some e from h] at hnone
    cases hnone

theorem isComplexity_requireReadable {regs : List Reg} {k : Outcome}
    (hk : k.error = some e → e.kind.isComplexity = false)
    (h : (requireReadable state regs pc loc k).error = some e) : e.kind.isComplexity = false := by
  unfold requireReadable at h
  split at h
  · next hread =>
    obtain rfl := Option.some.inj h
    obtain ⟨reg, -, hreg⟩ := List.exists_of_findSome?_eq_some hread
    exact isComplexity_checkRegReadable hreg
  · exact hk h

theorem isComplexity_alu {op : AluOp} {src : Source} {is64 : Bool}
    (h : (alu p pc insn op src is64 state stack idGen).error = some e) :
    e.kind.isComplexity = false :=
  isComplexity_requireReadable (fun h => isComplexity_checkAlu (error_ofExcept (fun _ => rfl) h)) h

theorem isComplexity_jump {op : JmpOp} {src : Source} {is32 : Bool}
    (h : (jump p pc insn op src is32 state stack).error = some e) :
    e.kind.isComplexity = false := by
  refine isComplexity_requireReadable (fun h => ?_) h
  split at h
  · obtain rfl := Option.some.inj h
    rfl
  · cases h

/-- **No instruction reports the budget.** -/
theorem isComplexity_transfer (h : (transfer p pc insn state stack idGen).error = some e) :
    e.kind.isComplexity = false := by
  unfold transfer at h
  dsimp only at h
  split at h
  · obtain rfl := Option.some.inj h
    rfl
  · exact isComplexity_checkExit h
  · exact isComplexity_checkCall (error_ofExcept (fun _ => rfl) h)
  · split at h
    · cases h
    · obtain rfl := Option.some.inj h
      rfl
  · exact isComplexity_jump h
  · exact isComplexity_jump h
  · exact isComplexity_alu h
  · exact isComplexity_alu h
  · cases h
  · exact isComplexity_requireReadable
      (fun h => isComplexity_checkLoad (error_ofExcept (fun _ => rfl) h)) h
  · exact isComplexity_requireReadable
      (fun h => isComplexity_checkStore (error_ofExcept (fun _ => rfl) h)) h
  · exact isComplexity_requireReadable
      (fun h => isComplexity_checkStore (error_ofExcept (fun _ => rfl) h)) h

end

/-! ## The walk -/

namespace Walk

variable {p : Program} {m m' : Walk}

/-- **A walk within its budget and its arrays.** -/
structure Within (p : Program) (m : Walk) : Prop where
  visited : m.totalVisited ≤ COMPLEXITY_LIMIT
  errors : ∀ e ∈ m.errors, e.kind.isComplexity = false
  /-- The array of explored states has one entry for each instruction. -/
  explored : ∀ pc, p.instructions.length ≤ pc → m.explored pc = []

/-- Where an instruction stands, its arrays have an entry. -/
theorem lt_of_current {pc : ℕ} {insn : BpfInsn} (h : m.current p = some (pc, insn)) :
    pc < p.instructions.length :=
  (List.getElem?_eq_some_iff.mp (of_current p m h).2).1

/-- Recording stores at the current instruction only. -/
theorem explored_record {pc k : ℕ} (hk : k ≠ pc) :
    (m.record p pc).explored k = m.explored k := by
  have hrec := recorded p m pc
  generalize m.record p pc = m' at hrec ⊢
  cases hrec with
  | widened _ => exact Function.update_of_ne hk _ _
  | stored => exact Function.update_of_ne hk _ _
  | full => rfl

/-- One pass keeps a walk within its budget. -/
theorem Within.step (h : m.Within p) (hs : m.step p = .next m') : m'.Within p := by
  have hpass := pass p m
  rw [hs] at hpass
  generalize hc : Control.next m' = c at hpass
  cases hpass with
  | ended _ =>
    obtain ⟨he, hv, -, hx⟩ := of_popOrBreak _ (Or.inl hc.symm)
    exact ⟨hv ▸ h.visited, he ▸ h.errors, hx ▸ h.explored⟩
  | limit _ => cases hc
  | dominated _ hlt _ =>
    obtain ⟨he, hv, -, hx⟩ := of_popOrBreak _ (Or.inl hc.symm)
    exact ⟨hv ▸ hlt, he ▸ h.errors, hx ▸ h.explored⟩
  | @visit v hv hlt =>
    obtain rfl := Control.next.inj hc
    obtain ⟨herr, hvis, -, -⟩ := (recorded p m.counted v.pc).rest
    refine ⟨?_, fun e he => ?_, fun k hk => ?_⟩
    · rw [totalVisited_follow, hvis]
      exact hlt
    · rw [errors_follow, herr, List.mem_append, Option.mem_toList] at he
      exact he.elim (h.errors e) isComplexity_transfer
    · have hpc := lt_of_current (of_visit p m hv).1
      rw [explored_follow, explored_record (by omega)]
      exact h.explored k hk

theorem within_of_reaches (hr : Reaches (Walk.step p) .initial m) : m.Within p :=
  hr.invariant ⟨Nat.zero_le _, fun e he => by simp [initial] at he, fun _ _ => rfl⟩
    fun _ h hs => h.step hs

/-- **How a walk ends**: with the budget exceeded by one visit and reported, or neither. -/
theorem Within.halt (h : m.Within p) (hs : m.step p = .halt m') :
    m'.totalVisited ≤ COMPLEXITY_LIMIT + 1 ∧
      ((∃ e ∈ m'.errors, e.kind.isComplexity = true) ↔
        m'.totalVisited = COMPLEXITY_LIMIT + 1) := by
  have hquiet (he : m'.errors = m.errors) (hv : m'.totalVisited ≤ COMPLEXITY_LIMIT) :
      m'.totalVisited ≤ COMPLEXITY_LIMIT + 1 ∧
        ((∃ e ∈ m'.errors, e.kind.isComplexity = true) ↔
          m'.totalVisited = COMPLEXITY_LIMIT + 1) := by
    refine ⟨by omega, iff_of_false ?_ (by omega)⟩
    rintro ⟨e, hmem, hcomplexity⟩
    rw [h.errors e (he ▸ hmem)] at hcomplexity
    cases hcomplexity
  have hvisited := h.visited
  unfold Walk.step at hs
  split at hs
  · obtain ⟨he, hv, -⟩ := of_popOrBreak _ (Or.inr hs)
    exact hquiet he (by omega)
  · next pc insn _ =>
    dsimp only at hs
    split at hs
    · next hlim =>
      obtain rfl := Control.halt.inj hs
      have hv : m.totalVisited + 1 = COMPLEXITY_LIMIT + 1 := by omega
      exact ⟨Nat.le_of_eq hv, iff_of_true
        ⟨_, List.mem_append_right m.errors (List.mem_singleton_self _), rfl⟩ hv⟩
    · next hlim =>
      split at hs
      · obtain ⟨he, hv, -⟩ := of_popOrBreak _ (Or.inr hs)
        exact hquiet he (Nat.le_trans (Nat.le_of_eq hv) (Nat.le_of_not_lt hlim))
      · cases hs

end Walk

/-! ## The report -/

/-- Deduplication keeps an error of every kind reported. -/
theorem exists_mem_dedupErrors {P : ℕ → Prop} : ∀ (seen : List (ℕ × ℕ)) (es : List VerifyError),
    ((∃ e ∈ dedupErrors seen es, P e.kind.discriminant) ∨ ∃ key ∈ seen, P key.2) ↔
      (∃ e ∈ es, P e.kind.discriminant) ∨ ∃ key ∈ seen, P key.2
  | seen, [] => by simp [dedupErrors]
  | seen, e :: es => by
      unfold dedupErrors
      dsimp only
      split
      · next hmem =>
        rw [exists_mem_dedupErrors seen es, List.exists_mem_cons_iff]
        constructor
        · exact Or.imp_left Or.inr
        · rintro ((hp | hes) | hseen)
          · exact Or.inr ⟨_, hmem, hp⟩
          · exact Or.inl hes
          · exact Or.inr hseen
      · have ih := exists_mem_dedupErrors (P := P) ((e.pc, e.kind.discriminant) :: seen) es
        rw [List.exists_mem_cons_iff] at ih
        rw [List.exists_mem_cons_iff, List.exists_mem_cons_iff, or_assoc, or_assoc, or_left_comm,
          ih, or_left_comm]

theorem isComplexity_iff {kind : ErrorKind} : kind.isComplexity = true ↔ kind.discriminant = 6 := by
  cases kind <;> simp [ErrorKind.isComplexity, ErrorKind.discriminant]

/-- The report names the budget when the walk did. -/
theorem Walk.exists_isComplexity_report {m : Walk} :
    (∃ e ∈ dedupErrors [] m.report, e.kind.isComplexity = true) ↔
      ∃ e ∈ m.errors, e.kind.isComplexity = true := by
  have hdedup := exists_mem_dedupErrors (P := (· = 6)) [] m.report
  simp only [List.not_mem_nil, false_and, exists_false, or_false] at hdedup
  simp only [isComplexity_iff, hdedup]
  unfold Walk.report
  split
  · simp [or_and_right, exists_or, ErrorKind.discriminant]
  · rfl

/-- The loop of `check_with_relocs` ends within its budget, never outside its arrays, and reports
the budget exceeded exactly when it is. -/
theorem checkWithRelocs_budget (p : Program) :
    endsWithin (Walk.step p) (2 * (COMPLEXITY_LIMIT + 1) + 1) .initial = true ∧
      (checkWithRelocs p).instructionsVisited ≤ COMPLEXITY_LIMIT + 1 ∧
      ((∃ e ∈ (checkWithRelocs p).errors, e.kind.isComplexity = true) ↔
        (checkWithRelocs p).instructionsVisited = COMPLEXITY_LIMIT + 1) := by
  have hstart : Walk.initial.measure = 2 * COMPLEXITY_LIMIT := rfl
  refine ⟨endsWithin_of_measure (fun m _ => Walk.measure_step p m) _ _ (by omega), ?_⟩
  unfold checkWithRelocs
  split
  · exact ⟨Nat.zero_le _, iff_of_false (by simp [ErrorKind.isComplexity]) (by simp)⟩
  · have hfuel : Walk.initial.measure < LOOP_FUEL := by
      rw [hstart, LOOP_FUEL]
      omega
    obtain ⟨m, hr, hhalt⟩ := exists_halt (fun m _ => Walk.measure_step p m) LOOP_FUEL _ hfuel
    obtain ⟨hvisited, hbudget⟩ := (Walk.within_of_reaches hr).halt hhalt
    exact ⟨hvisited, Walk.exists_isComplexity_report.trans hbudget⟩

/-! ## With overflow checks -/

section

variable {state : VerifierState} {insn : BpfInsn} {op : AluOp} {src : Source} {is64 : Bool}
  {p : Program} {pc : ℕ}

/-- **A shift panics only on an amount above its own bound**: one the check reads as legal and the
tnum knows to be 64 or more. -/
theorem checkAluPanics_of_le
    (h : ∀ v, (aluSrcState state insn src is64).tnum.knownValue = some v →
      v.toNat ≤ (aluSrcState state insn src is64).umax.toNat) :
    checkAluPanics state insn op src is64 = false := by
  rw [Bool.eq_false_iff]
  intro hpanics
  simp only [checkAluPanics, Bool.and_eq_true, Option.isNone_iff_eq_none] at hpanics
  obtain ⟨⟨⟨-, hshift⟩, -⟩, harsh⟩ := hpanics
  unfold arshPanics at harsh
  split at harsh
  · next s _ hs =>
    have hbound : (maxShift is64).toNat ≤ 63 := by cases is64 <;> decide
    have hle := Nat.le_trans (h s hs) (umax_operand_le hshift)
    have hge := of_decide_eq_true harsh
    omega
  · cases harsh

/-- An immediate is its own bound. -/
theorem checkAluPanics_imm : checkAluPanics state insn op .imm is64 = false := by
  refine checkAluPanics_of_le fun v hv => Nat.le_of_eq ?_
  exact congrArg BitVec.toNat (Option.some.inj (hv.symm.trans (Tnum.knownValue_of_isKnown rfl)))

/-- An instruction that shifts right by a register, keeping the sign. -/
def BpfInsn.shiftsArith (insn : BpfInsn) : Bool :=
  match insn.opcode with
  | .alu64 .arsh .reg | .alu32 .arsh .reg => true
  | _ => false

/-- Only a shift by a register panics. -/
theorem transferPanics_of_not_shiftsArith (h : insn.shiftsArith = false) :
    transferPanics p pc insn state = false := by
  have hquiet {op : AluOp} {src : Source} {is64 : Bool} (hop : op ≠ .arsh ∨ src = .imm) :
      checkAluPanics state insn op src is64 = false := by
    rcases hop with hop | rfl
    · simp [checkAluPanics, hop]
    · exact checkAluPanics_imm
  have hcases {op : AluOp} {src : Source}
      (hinsn : insn.opcode = .alu64 op src ∨ insn.opcode = .alu32 op src) :
      op ≠ .arsh ∨ src = .imm := by
    by_contra hnot
    obtain ⟨rfl, hsrc⟩ : op = .arsh ∧ src ≠ .imm := by simpa only [not_or, not_not] using hnot
    obtain rfl : src = .reg := by cases src <;> simp at hsrc ⊢
    rcases hinsn with hinsn | hinsn <;> simp [BpfInsn.shiftsArith, hinsn] at h
  unfold transferPanics
  dsimp only
  split
  · next hinsn => rw [hquiet (hcases (Or.inl hinsn)), Bool.and_false]
  · next hinsn => rw [hquiet (hcases (Or.inr hinsn)), Bool.and_false]
  · rfl

/-- A pass panics at an instruction of the list only. -/
theorem Walk.panics_of_not_shiftsArith (h : ∀ insn ∈ p.instructions, insn.shiftsArith = false)
    (m : Walk) : m.panics p = false := by
  unfold Walk.panics
  split
  · rfl
  · next pc insn hcur =>
    have hmem := List.mem_of_getElem? (of_current p m hcur).2
    dsimp only
    split
    · rfl
    · split
      · rfl
      · exact transferPanics_of_not_shiftsArith (h insn hmem)

end

/-- **The verifier keeps its budget** on a programme: with overflow checks on, its loop ends within
the passes allowed and inside its arrays, and it reports the visits made, the budget exceeded
exactly when it is. -/
structure KeepsBudget (p : Program) : Prop where
  ends : endsWithin (Walk.stepDebug p) (2 * (COMPLEXITY_LIMIT + 1) + 1) (some .initial) = true
  collapsed : (buildPcMap p.instructions).1.length = p.instructions.length
  inRange : ∀ m, Reaches (Walk.stepDebug p) (some .initial) (some m) →
    (∀ pc insn, m.current p = some (pc, insn) → pc < p.instructions.length) ∧
      ∀ pc, p.instructions.length ≤ pc → m.explored pc = []
  reports : ∃ result, checkWithRelocsDebug p = some result ∧
    result.instructionsVisited ≤ COMPLEXITY_LIMIT + 1 ∧
    ((∃ e ∈ result.errors, e.kind.isComplexity = true) ↔
      result.instructionsVisited = COMPLEXITY_LIMIT + 1)

/-- Without a panic the checks change nothing. -/
theorem checkWithRelocsDebug_eq {p : Program}
    (h : ∀ m, Reaches (Walk.step p) .initial m → m.panics p = false) :
    checkWithRelocsDebug p = some (checkWithRelocs p) := by
  unfold checkWithRelocsDebug checkWithRelocs
  split
  · rfl
  · rw [Walk.stepDebug, iterate_guarded _ _ h]
    rfl

/-- A panic leaves no report. -/
theorem checkWithRelocsDebug_eq_none {p : Program} {m : Walk}
    (hr : Reaches (Walk.step p) .initial m) (h : m.panics p = true) :
    checkWithRelocsDebug p = none := by
  have hfuel : Walk.initial.measure < LOOP_FUEL := by decide
  have hne : p.instructions.isEmpty = false := by
    rw [List.isEmpty_eq_false_iff]
    rintro hnil
    have hcur : m.current p = none := by
      unfold Walk.current
      cases m.pc with
      | none => rfl
      | some pc => simp [hnil]
    simp [Walk.panics, hcur] at h
  rw [checkWithRelocsDebug, hne, Walk.stepDebug,
    iterate_guarded_eq_none (fun m _ => Walk.measure_step p m) _ _ _ hfuel hr h]
  rfl

/-- What holds of every programme, panic or not. -/
theorem KeepsBudget.of_reports {p : Program}
    (h : ∃ result, checkWithRelocsDebug p = some result ∧
      result.instructionsVisited ≤ COMPLEXITY_LIMIT + 1 ∧
      ((∃ e ∈ result.errors, e.kind.isComplexity = true) ↔
        result.instructionsVisited = COMPLEXITY_LIMIT + 1)) : KeepsBudget p where
  ends := by
    have hstart : (some Walk.initial).elim 0 Walk.measure = 2 * COMPLEXITY_LIMIT := rfl
    exact endsWithin_of_measure (guarded_measure fun m _ => Walk.measure_step p m) _ _ (by omega)
  collapsed := length_buildPcMap p
  inRange m hr := by
    obtain ⟨m', hm', hr'⟩ := hr.of_guarded
    obtain rfl := Option.some.inj hm'
    exact ⟨fun pc insn => Walk.lt_of_current, (Walk.within_of_reaches hr').explored⟩
  reports := h

/-- **The verifier keeps its budget exactly on the programmes whose walk meets no shift that
panics**: an arithmetic right shift of scalars that passes its check, while the tnums know both
operands and an amount of 64 or more.  A programme without arithmetic right shifts by a register
is one. -/
theorem keepsBudget_iff (p : Program) :
    (KeepsBudget p ↔ ∀ m, Reaches (Walk.step p) .initial m → m.panics p = false) ∧
      ((∀ insn ∈ p.instructions, insn.shiftsArith = false) → KeepsBudget p) := by
  have hkeeps (hquiet : ∀ m, Reaches (Walk.step p) .initial m → m.panics p = false) :
      KeepsBudget p :=
    .of_reports ⟨_, checkWithRelocsDebug_eq hquiet, (checkWithRelocs_budget p).2⟩
  refine ⟨⟨fun h m hr => ?_, hkeeps⟩, fun h => hkeeps fun m _ => m.panics_of_not_shiftsArith h⟩
  rw [Bool.eq_false_iff]
  intro hpanics
  obtain ⟨result, hresult, -⟩ := h.reports
  rw [checkWithRelocsDebug_eq_none hr hpanics] at hresult
  cases hresult

/-- `r0 = 1; r1 = 100; if r1 < 10 { r0 s>>= r1 }; exit`, the branch refining a known value. -/
def shiftsFar : Program :=
  .ofInsns [.aluImm .mov .r0 1, .aluImm .mov .r1 100, .jmpImm .jlt .r1 10 1, .ret,
    .aluReg .arsh .r0 .r1, .ret]

/-- The verifier panics on `shiftsFar`. -/
theorem not_keepsBudget : ¬ ∀ p : Program, KeepsBudget p := by
  intro hall
  obtain ⟨result, hresult, -⟩ := (hall shiftsFar).reports
  have hnone : checkWithRelocsDebug shiftsFar = none :=
    Option.isNone_iff_eq_none.mp (by decide +kernel)
  rw [hnone] at hresult
  cases hresult

end BpfVerifier
