import BpfVerifier.Soundness.Describes
import BpfVerifier.Soundness.Precise

/-!
# Soundness/Merge — pruning and widening

What the current state describes is described by the state that subsumes it, and by the one it is
widened into (`Program.Precise.respects`): the explorer of `Kverify/Coverage` then runs with
description itself as the relation between states.
-/

namespace BpfVerifier

open Loop

variable {p : Program} {L : Layout} {sized : ℕ → BitVec 32 → BitVec 64 → Prop} {ρ : ℕ → Val}
  {state state' : VerifierState} {stack stack' : StackState} {s : MState} {n : ℕ}
  {r r' : RegState} {v : Val}

/-! ## Registers -/

/-- **A subsumed register's values are the subsuming one's.** -/
theorem RegHolds.of_isSubstateOf (h : RegHolds L sized ρ r v) (hwf : r'.Wf n)
    (hs : r.isSubstateOf r' = true) (hex : subsumePrecise r r' = true) :
    RegHolds L sized ρ r' v := by
  by_cases hu : r'.regType = .uninit
  · exact .of_type (by simp [hu]) (by rw [hu]; trivial)
  · have ht := RegState.regType_of_isSubstateOf hs
    refine ⟨ht ▸ h.type, fun hscalar => ?_⟩
    have hk : r.signedKeeps r' = true := by simpa [subsumePrecise, hscalar] using hex
    have hr : r.regType = .scalar := ht.trans hscalar
    exact (h.bounds hr).of_isSubstateOf hr hs hwf.tnum hk

/-- **A widened register's values are among the widening's.** -/
theorem RegHolds.widen {q : RegState} (h : RegHolds L sized ρ r v) (hq : q.Wf n)
    (hex : widenPrecise q r = true) : RegHolds L sized ρ (q.widen r) v := by
  unfold widenPrecise at hex
  by_cases ht : q.regType = r.regType
  · rw [if_pos ht] at hex
    by_cases hscalar : q.regType = .scalar
    · have hr : r.regType = .scalar := ht ▸ hscalar
      have hk : r.signedKeeps (q.widenScalar r) = true := by simpa [hr] using hex
      rw [RegState.widen_of_scalar hscalar hr]
      exact .of_bounds (RegState.regType_refineBounds _)
        ((h.bounds hr).widenScalar hq.tnum hk).refineBounds
    · rw [RegState.widen_of_eq ht hscalar]
      exact .of_type hscalar (ht ▸ h.type)
  · rw [if_neg ht] at hex
    rw [RegState.widen_of_ne ht, if_pos (by simpa using hex)]
    exact regHolds_uninit

/-! ## States -/

/-- **A subsumed state describes no more than the subsuming one.** -/
theorem Describes.of_isSubstateOf (h : Describes L sized state stack s)
    (hwf : StateWf n state' stack') (hs : state.isSubstateOf state' = true)
    (hk : stack.isSubstateOf stack' = true)
    (hex : prunePrecise state stack (state', stack') = true) :
    Describes L sized state' stack' s := by
  obtain ⟨ρ, h⟩ := h
  simp only [prunePrecise, spillsPrecise, Bool.and_eq_true, List.all_eq_true] at hex
  refine ⟨ρ, fun r => ?_, fun o r' hr' => ?_, fun o i ho hi => ?_⟩
  · exact (h.regs r).of_isSubstateOf (hwf.regs r) (VerifierState.isSubstateOf_iff.mp hs r)
      (hex.1 r (Reg.mem_all r))
  · have hkept := hex.2 (o, r') (AssocMap.mem_of_get hr')
    split at hkept
    · next r hr =>
      rw [Bool.and_eq_true] at hkept
      exact (h.spills o r hr).of_isSubstateOf (hwf.spills o r' hr') hkept.1 hkept.2
    · cases hkept
  · exact h.init o i ho (StackState.isSubstateOf_iff.mp hk i hi)

/-- **A state describes no more than the one it is widened into.** -/
theorem Describes.widen (h : Describes L sized state stack s) (hwf : StateWf n state' stack')
    (hregs : ∀ r, widenPrecise (state'.get r) (state.get r) = true)
    (hspills : spillsPrecise (fun r q => widenPrecise q r) stack' stack = true) :
    Describes L sized (state'.widen state) (stack'.widen stack) s := by
  obtain ⟨ρ, h⟩ := h
  simp only [spillsPrecise, List.all_eq_true] at hspills
  refine ⟨ρ, fun r => (h.regs r).widen (hwf.regs r) (hregs r), fun o r hr => ?_,
    fun o i ho hi => ?_⟩
  · rw [StackState.getSpill_widen] at hr
    obtain ⟨q, hq, rfl⟩ := Option.map_eq_some_iff.mp hr
    have hkept := hspills (o, q) (AssocMap.mem_of_get hq)
    split at hkept
    · next r' hr' =>
      rw [hr']
      exact (h.spills o r' hr').widen (hwf.spills o q hq) hkept
    · cases hkept
  · exact h.init o i ho (Bool.and_eq_true_iff.mp hi).2

/-! ## Walks -/

/-- What a relation to machine states holds of one verifier state, it holds of another. -/
def Keeps (I : VerifierState → StackState → MState → Prop) (state : VerifierState)
    (stack : StackState) (state' : VerifierState) (stack' : StackState) : Prop :=
  ∀ s, I state stack s → I state' stack' s

/-- Recording does not look at the count of visits. -/
theorem Walk.record_counted (p : Program) (m : Walk) (pc : ℕ) :
    m.counted.record p pc = (m.record p pc).counted := by
  unfold Walk.record Walk.counted
  cases p.backEdgeTargets.contains pc with
  | false =>
    dsimp only
    split <;> rfl
  | true =>
    cases m.explored pc with
    | nil =>
      dsimp only
      split <;> rfl
    | cons e rest => rfl

/-- The visit of a walk takes no unsound step. -/
theorem Program.Precise.visit (hp : p.Precise) {m : Walk}
    (hr : Reaches (Walk.step p) .initial m) {v : Visit} (hv : m.visit p = some v) :
    recordPrecise p m v.pc = true ∧ transferPrecise v.insn v.state v.stack = true := by
  obtain ⟨hcur, hdom, hstate, hstack, -⟩ := Walk.of_visit p m hv
  have hm := hp m hr
  rw [Walk.record_counted] at hstate hstack
  simpa [Walk.precise, hcur, hdom, hstate, hstack, Walk.counted] using hm

theorem Program.Precise.transfer (hp : p.Precise) {v : Visit} (hv : p.Visits v) :
    transferPrecise v.insn v.state v.stack = true := by
  obtain ⟨m, hr, hm⟩ := hv
  exact (hp.visit hr hm).2

/-- **Merges keep a relation to machine states** if some subsuming state and the widened one do. -/
theorem Program.respects_keeps {I : VerifierState → StackState → MState → Prop}
    (hdom : ∀ m, Reaches (Walk.step p) .initial m → ∀ pc insn, m.current p = some (pc, insn) →
      m.dominated pc = true → ∃ e ∈ m.explored pc, Keeps I m.state m.stack e.1 e.2)
    (hwiden : ∀ m, Reaches (Walk.step p) .initial m → ∀ v, m.visit p = some v → ∀ e rest,
      p.backEdgeTargets.contains v.pc = true → m.explored v.pc = e :: rest →
      Keeps I m.state m.stack (e.1.widen m.state) (e.2.widen m.stack)) :
    p.Respects (Keeps I) where
  dominated m hr pc insn hcur hd := hdom m hr pc insn hcur hd
  visited m hr v hv := by
    obtain ⟨-, -, hstate, hstack, -⟩ := Walk.of_visit p m hv
    rw [hstate, hstack, Walk.record_counted]
    have hsame (hrec : (m.record p v.pc).state = m.state ∧ (m.record p v.pc).stack = m.stack) :
        Keeps I m.state m.stack (m.record p v.pc).counted.state
          (m.record p v.pc).counted.stack := by
      intro s h
      change I (m.record p v.pc).state (m.record p v.pc).stack s
      rwa [hrec.1, hrec.2]
    cases hback : p.backEdgeTargets.contains v.pc with
    | false =>
      refine hsame ?_
      simp only [Walk.record, hback]
      split <;> exact ⟨rfl, rfl⟩
    | true =>
      cases hexp : m.explored v.pc with
      | nil =>
        refine hsame ?_
        simp only [Walk.record, hback, hexp]
        split <;> exact ⟨rfl, rfl⟩
      | cons e rest =>
        intro s h
        have hw := hwiden m hr v hv e rest hback hexp s h
        simp only [Walk.record, hback, hexp]
        exact hw

/-- The state a precise walk prunes in favour of loses nothing. -/
theorem Program.Precise.dominated (hp : p.Precise) {m : Walk}
    (hr : Reaches (Walk.step p) .initial m) {pc : ℕ} {insn : BpfInsn}
    (hcur : m.current p = some (pc, insn)) (hdom : m.dominated pc = true) :
    ∃ e ∈ m.explored pc, (m.state.isSubstateOf e.1 = true ∧ m.stack.isSubstateOf e.2 = true) ∧
      prunePrecise m.state m.stack e = true := by
  have hm := hp m hr
  simpa only [Walk.precise, hcur, hdom, if_true, List.any_eq_true, Bool.and_eq_true] using hm

/-- What a precise walk widens a state into describes it. -/
theorem Program.Precise.widen (hp : p.Precise) {m : Walk}
    (hr : Reaches (Walk.step p) .initial m) {v : Visit} (hv : m.visit p = some v)
    {e : VerifierState × StackState} {rest : List (VerifierState × StackState)}
    (hback : p.backEdgeTargets.contains v.pc = true) (hexp : m.explored v.pc = e :: rest) :
    (∀ r, widenPrecise (e.1.get r) (m.state.get r) = true) ∧
      spillsPrecise (fun r q => widenPrecise q r) e.2 m.stack = true := by
  have hex := (hp.visit hr hv).1
  rw [recordPrecise, hback, hexp] at hex
  obtain ⟨hregs, hspills⟩ := Bool.and_eq_true_iff.mp hex
  exact ⟨fun r => List.all_eq_true.mp hregs r (Reg.mem_all r), hspills⟩

/-- **Pruning and widening lose nothing a precise walk describes.** -/
theorem Program.Precise.respects (hp : p.Precise) (L : Layout)
    (sized : ℕ → BitVec 32 → BitVec 64 → Prop) : p.Respects (Keeps (Describes L sized)) := by
  refine Program.respects_keeps (fun m hr pc insn hcur hdom => ?_)
    fun m hr v hv e rest hback hexp s h => ?_
  · obtain ⟨e, he, ⟨hs, hk⟩, hex⟩ := hp.dominated hr hcur hdom
    exact ⟨e, he, fun s h =>
      h.of_isSubstateOf ((Walk.wf_of_reaches hr).explored pc e he) hs hk hex⟩
  · obtain ⟨hregs, hspills⟩ := hp.widen hr hv hback hexp
    have hwf := (Walk.wf_of_reaches hr).explored v.pc e (by rw [hexp]; exact List.mem_cons_self)
    exact h.widen hwf hregs hspills

end BpfVerifier
