import BpfVerifier.Kverify.Coverage

/-!
# Kverify/Stable — what holds of the state at every instruction

A property of the state at an instruction that the entry has, that widening keeps and that every
visit hands on holds of every state a walk holds (`Program.Stable.of_reaches`), and of every visit
(`Program.Stable.of_visits`).
-/

namespace BpfVerifier

open Loop

variable {p : Program} {m : Walk}

/-- **A property of the state at an instruction** that the entry has, that widening keeps, and that
every visit hands on to what it leaves to explore. -/
structure Program.Stable (p : Program) (S : ℕ → VerifierState → StackState → Prop) : Prop where
  entry : S 0 .entry .new
  widen : ∀ {pc state stack state' stack'}, S pc state stack → S pc state' stack' →
    S pc (state.widen state') (stack.widen stack')
  successors : ∀ {v : Visit}, p.instructions[v.pc]? = some v.insn → S v.pc v.state v.stack →
    ∀ i ∈ (v.outcome p).successors, S i.pc i.state i.stack

namespace Program.Stable

variable {S : ℕ → VerifierState → StackState → Prop}

/-- Recording the current state keeps the property. -/
theorem recorded (hS : p.Stable S) {pc : ℕ} {m m' : Walk} (hrec : m.Recorded pc m')
    (hhere : S pc m.state m.stack) (hold : ∀ k, ∀ e ∈ m.explored k, S k e.1 e.2) :
    S pc m'.state m'.stack ∧ ∀ k, ∀ e ∈ m'.explored k, S k e.1 e.2 := by
  have hupdate {states : List (VerifierState × StackState)} (hs : ∀ e ∈ states, S pc e.1 e.2)
      (k : ℕ) : ∀ e ∈ Function.update m.explored pc states k, S k e.1 e.2 := by
    intro e he
    by_cases hk : k = pc
    · subst hk
      rw [Function.update_self] at he
      exact hs e he
    · rw [Function.update_of_ne hk] at he
      exact hold k e he
  cases hrec with
  | @widened regs stack rest hcons =>
    have hprev (e) (he : e ∈ (regs, stack) :: rest) : S pc e.1 e.2 := hold pc e (hcons ▸ he)
    have hw := hS.widen (hprev _ List.mem_cons_self) hhere
    refine ⟨hw, hupdate fun e he => ?_⟩
    rcases List.mem_cons.mp he with rfl | hrest
    · exact hw
    · exact hprev e (List.mem_cons_of_mem _ hrest)
  | stored =>
    refine ⟨hhere, hupdate fun e he => ?_⟩
    rcases List.mem_append.mp he with he | he
    · exact hold pc e he
    · obtain rfl := List.mem_singleton.mp he
      exact hhere
  | full => exact ⟨hhere, hold⟩

/-- A walk whose states all have the property. -/
structure Holds (S : ℕ → VerifierState → StackState → Prop) (m : Walk) : Prop where
  pending : ∀ i ∈ m.pending, S i.pc i.state i.stack
  explored : ∀ pc, ∀ e ∈ m.explored pc, S pc e.1 e.2

theorem Holds.popOrBreak {m' : Walk} (h : Holds S m) (hpop : m.popOrBreak = .next m') :
    Holds S m' := by
  unfold Walk.popOrBreak at hpop
  split at hpop
  · next item rest hb =>
    cases hpop
    refine ⟨fun i hi => h.pending i (List.mem_append_right _ ?_), h.explored⟩
    rw [hb]
    exact hi
  · cases hpop

/-- The state of a visit has the property. -/
theorem Holds.visit (hS : p.Stable S) (h : Holds S m) {v : Visit} (hv : m.visit p = some v) :
    S v.pc v.state v.stack ∧
      ∀ pc, ∀ e ∈ (m.counted.record p v.pc).explored pc, S pc e.1 e.2 := by
  obtain ⟨hcur, -, hstate, hstack, -⟩ := Walk.of_visit p m hv
  have hhere : S v.pc m.state m.stack := by
    refine h.pending ⟨v.pc, m.state, m.stack⟩ (List.mem_append_left _ ?_)
    rw [Walk.here_of_current p m hcur]
    exact List.mem_singleton.mpr rfl
  rw [hstate, hstack]
  exact hS.recorded (Walk.recorded p m.counted v.pc) hhere h.explored

/-- **The property holds all along the walk.** -/
theorem of_reaches (hS : p.Stable S) (hr : Reaches (Walk.step p) .initial m) : Holds S m := by
  induction hr with
  | start =>
    refine ⟨fun i hi => ?_, fun pc e he => by simp [Walk.initial] at he⟩
    obtain rfl := List.mem_singleton.mp hi
    exact hS.entry
  | @next m m' hr hs ih =>
    have hpass := Walk.pass p m
    rw [hs] at hpass
    generalize hc : Control.next m' = c at hpass
    cases hpass with
    | ended _ => exact ih.popOrBreak hc.symm
    | limit _ => cases hc
    | dominated _ _ _ => exact Holds.popOrBreak (m := m.counted) ⟨ih.pending, ih.explored⟩ hc.symm
    | @visit v hv _ =>
      obtain rfl := Control.next.inj hc
      obtain ⟨hvisit, hexplored⟩ := ih.visit hS hv
      obtain ⟨-, -, -, hback⟩ := (Walk.recorded p m.counted v.pc).rest
      have hinsn := (Walk.of_current p m (Walk.of_visit p m hv).1).2
      refine ⟨fun i hi => ?_, fun pc e he => ?_⟩
      · rw [Walk.pending_follow, hback] at hi
        rcases List.mem_append.mp hi with hi | hi
        · exact hS.successors hinsn hvisit i hi
        · exact ih.pending i (List.mem_append_right _ hi)
      · rw [Walk.explored_follow] at he
        exact hexplored pc e he

/-- **The property holds of every visit.** -/
theorem of_visits (hS : p.Stable S) {v : Visit} (hv : p.Visits v) : S v.pc v.state v.stack := by
  obtain ⟨m, hr, hv⟩ := hv
  exact ((hS.of_reaches hr).visit hS hv).1

end Program.Stable

end BpfVerifier
