import BpfVerifier.Soundness.Sealed

/-!
# Soundness/Tight — walks that keep runs sealed

A merge forgets a spill that the kept stack does not track, and a pointer there would pass for a
number on the next load.  A walk whose transfers seal, and whose merges keep the spills that may
hold pointers, carries the seal along every run (`Program.Tight.carries`).
-/

namespace BpfVerifier

open Loop

variable {p : Program} {L : Layout} {sized : ℕ → BitVec 32 → BitVec 64 → Prop}
  {state state' : VerifierState} {stack stack' : StackState} {s : MState}

/-! ## Tight walks -/

/-- The kept stack tracks every spill of the current one that may hold a pointer. -/
def spillsKept (kept stack : StackState) : Bool :=
  stack.spills.entries.all fun x => x.2.regType.isNumber || (kept.getSpill x.1).isSome

/-- Widening the stored state by the current one keeps its spills. -/
def recordKeeps (p : Program) (m : Walk) (pc : ℕ) : Bool :=
  match p.backEdgeTargets.contains pc, m.explored pc with
  | true, (_, stack) :: _ => spillsKept stack m.stack
  | _, _ => true

/-- This pass of the walk lets no pointer pass for a number. -/
def Walk.tight (p : Program) (m : Walk) : Bool :=
  match m.current p with
  | none => true
  | some (pc, insn) =>
    if m.dominated pc then
      (m.explored pc).any fun e =>
        m.state.isSubstateOf e.1 && m.stack.isSubstateOf e.2 && prunePrecise m.state m.stack e &&
          spillsKept e.2 m.stack
    else recordKeeps p m pc && transferSeals insn (m.record p pc).state

/-- **No step of the programme's walk is unsound or lets a pointer pass for a number.** -/
structure Program.Tight (p : Program) : Prop where
  precise : p.Precise
  tight : ∀ m, Reaches (Walk.step p) .initial m → m.tight p = true

/-- A test of every pass of the walk. -/
theorem Program.Precise.tight_of_testAll (hp : p.Precise)
    (h : testAll (Walk.step p) (Walk.tight p) LOOP_FUEL .initial = true) : p.Tight :=
  ⟨hp, fun _ hr => of_testAll h hr⟩

/-! ## Merges -/

/-- A register widened into a scalar is one. -/
theorem RegState.scalar_of_widen {q r : RegState} (hex : widenPrecise q r = true)
    (hr : (q.widen r).regType = .scalar) : r.regType = .scalar := by
  unfold widenPrecise at hex
  by_cases ht : q.regType = r.regType
  · by_cases hscalar : q.regType = .scalar
    · exact ht ▸ hscalar
    · rw [RegState.widen_of_eq ht hscalar] at hr
      exact absurd hr hscalar
  · rw [if_neg ht] at hex
    rw [RegState.widen_of_ne ht, if_pos (by simpa using hex)] at hr
    cases hr

/-- A pointer in the frame is a spill of the kept stack, too. -/
theorem Sealed.exists_kept (h : Sealed state stack s) (hd : Describes L sized state stack s)
    {kept : StackState} (hkept : spillsKept kept stack = true) {k : BitVec 64}
    (hk : (readFrame s.frame k .dw).isPtr = true) :
    ∃ q r, kept.getSpill k = some q ∧ stack.getSpill k = some r ∧ r.regType ≠ .scalar := by
  obtain ⟨ρ, hd⟩ := hd
  obtain ⟨r, hr, hne⟩ := h.frame k hk
  have hor := List.all_eq_true.mp hkept (k, r) (AssocMap.mem_of_get hr)
  rcases Bool.or_eq_true_iff.mp hor with hnum | hsome
  · -- the spill is null, and so is what the frame holds
    have hnull : r.regType = .null := by
      cases ht : r.regType <;> simp_all [RegType.isNumber]
    have htype := (hd.spills k r hr).type
    rw [hnull] at htype
    rw [Val.IsNull.isPtr_eq htype] at hk
    cases hk
  · obtain ⟨q, hq⟩ := Option.isSome_iff_exists.mp hsome
    exact ⟨q, r, hq, hr, hne⟩

/-- **A subsuming state that keeps the spills is sealed.** -/
theorem Sealed.of_isSubstateOf (h : Sealed state stack s) (hd : Describes L sized state stack s)
    (hs : state.isSubstateOf state' = true)
    (hex : prunePrecise state stack (state', stack') = true)
    (hkept : spillsKept stack' stack = true) : Sealed state' stack' s where
  regs r hr := h.regs r
    ((RegState.regType_of_isSubstateOf (VerifierState.isSubstateOf_iff.mp hs r)).trans hr)
  frame k hk := by
    obtain ⟨q, r, hq, hr, hne⟩ := h.exists_kept hd hkept hk
    refine ⟨q, hq, fun hscalar => hne ?_⟩
    simp only [prunePrecise, spillsPrecise, Bool.and_eq_true, List.all_eq_true] at hex
    have hspill := hex.2 (k, q) (AssocMap.mem_of_get hq)
    rw [hr] at hspill
    exact (RegState.regType_of_isSubstateOf (Bool.and_eq_true_iff.mp hspill).1).trans hscalar
  stored := h.stored

/-- **A state widened into one that keeps the spills is sealed.** -/
theorem Sealed.widen (h : Sealed state stack s) (hd : Describes L sized state stack s)
    (hregs : ∀ r, widenPrecise (state'.get r) (state.get r) = true)
    (hspills : spillsPrecise (fun r q => widenPrecise q r) stack' stack = true)
    (hkept : spillsKept stack' stack = true) :
    Sealed (state'.widen state) (stack'.widen stack) s where
  regs r hr := h.regs r (RegState.scalar_of_widen (hregs r) hr)
  frame k hk := by
    obtain ⟨q, r, hq, hr, hne⟩ := h.exists_kept hd hkept hk
    have hspill := List.all_eq_true.mp hspills (k, q) (AssocMap.mem_of_get hq)
    rw [hr] at hspill
    refine ⟨q.widen r, ?_, fun hscalar => hne (RegState.scalar_of_widen hspill hscalar)⟩
    rw [StackState.getSpill_widen, hq, Option.map_some]
    simp only [hr]
  stored := h.stored

/-! ## Runs -/

/-- **Entry is sealed.** -/
theorem MState.Entry.sealed (h : s.Entry L) : Sealed .entry .new s where
  regs r hr := by cases r <;> cases hr
  frame k hk := by
    unfold readFrame at hk
    split at hk
    · rw [h.frame_number k] at hk
      cases hk
    · cases hk
  stored := by
    rw [h.stored_eq]
    exact fun v hv => by cases hv

/-- The visit of a tight walk lets no pointer pass for a number. -/
theorem Program.Tight.visit (hp : p.Tight) {m : Walk} (hr : Reaches (Walk.step p) .initial m)
    {v : Visit} (hv : m.visit p = some v) :
    recordKeeps p m v.pc = true ∧ transferSeals v.insn v.state = true := by
  obtain ⟨hcur, hdom, hstate, -, -⟩ := Walk.of_visit p m hv
  have hm := hp.tight m hr
  rw [Walk.record_counted] at hstate
  simpa [Walk.tight, hcur, hdom, hstate, Walk.counted] using hm

theorem Program.Tight.transfer (hp : p.Tight) {v : Visit} (hv : p.Visits v) :
    transferSeals v.insn v.state = true := by
  obtain ⟨m, hr, hm⟩ := hv
  exact (hp.visit hr hm).2

/-- Description and seal, as one relation. -/
def SealedAt (p : Program) (L : Layout) (state : VerifierState) (stack : StackState)
    (s : MState) : Prop := Describes L p.Sized state stack s ∧ Sealed state stack s

theorem Program.Tight.respects (hp : p.Tight) (L : Layout) : p.Respects (Keeps (SealedAt p L)) := by
  refine Program.respects_keeps (fun m hr pc insn hcur hdom => ?_)
    fun m hr v hv e rest hback hexp s h => ?_
  · have hm := hp.tight m hr
    simp only [Walk.tight, hcur, hdom, if_true, List.any_eq_true, Bool.and_eq_true] at hm
    obtain ⟨e, he, ⟨⟨hs, hk⟩, hex⟩, hkept⟩ := hm
    have hwf := (Walk.wf_of_reaches hr).explored pc e he
    exact ⟨e, he, fun s h =>
      ⟨h.1.of_isSubstateOf hwf hs hk hex, h.2.of_isSubstateOf h.1 hs hex hkept⟩⟩
  · obtain ⟨hregs, hspills⟩ := hp.precise.widen hr hv hback hexp
    have hkept := (hp.visit hr hv).1
    rw [recordKeeps, hback, hexp] at hkept
    have hwf := (Walk.wf_of_reaches hr).explored v.pc e (by rw [hexp]; exact List.mem_cons_self)
    exact ⟨h.1.widen hwf hregs hspills, h.2.widen h.1 hregs hspills hkept⟩

/-- **The seal is carried along** by a tight walk, over every step of the machine. -/
theorem Program.Tight.carries (hp : p.Tight) (L : Layout) :
    p.Carries L (MState.Steps p L) (SealedAt p L) where
  steps _ _ h := h
  entry _ h := ⟨h.describes, h.sealed⟩
  merge := hp.respects L
  step v hv herr s s' hpc hI hs := by
    obtain ⟨hd, hseal⟩ := hI
    obtain ⟨ω, hs⟩ := hs
    have hexplains : v.Explains p L s := ⟨hv, herr, hp.precise.transfer hv, hpc, hd⟩
    obtain ⟨ρ, hρ⟩ := hd
    have hun : UnmixedAt v.state v.insn s := hseal.unmixedAt hρ (hp.transfer hv)
    obtain ⟨i, hi, hpc', hd'⟩ := hexplains.step hun hs
    obtain ⟨insn, hinsn, hexec⟩ := MState.exists_at_of_step hs
    obtain rfl := hv.insn_eq_of_at hpc hinsn
    exact ⟨i, hi, hpc', hd',
      hexplains.accepts.seals hρ hv.wf hseal (hp.transfer hv) hexec i hi⟩

end BpfVerifier
