import BpfVerifier.Kverify.Worklist
import BpfVerifier.Machinery.Explore

/-!
# Kverify/Coverage — an accepted walk is a closed exploration

A `Visit` is one processed instruction with the state it is processed in.  The loop of
`check_with_relocs` runs an `Explorer` whose items are the current state and the backtrack stack: a
dominated state is dropped, any other is visited in the state `record` leaves.  Every walk ends
before its fuel does, so the visits of an accepted programme are closed (`closed_of_passed`) — for
any relation `Cov` that pruning and widening respect.
-/

namespace BpfVerifier

open Loop Explorer

/-- One processed instruction, in the state it is processed in. -/
structure Visit where
  pc : ℕ
  insn : BpfInsn
  state : VerifierState
  stack : StackState
  idGen : ℕ

/-- What processing the instruction led to. -/
def Visit.outcome (p : Program) (v : Visit) : Outcome :=
  transfer p v.pc v.insn v.state v.stack v.idGen

namespace Outcome

/-- The states an outcome leaves to be explored, the fallthrough first. -/
def successors : Outcome → List WorkItem
  | .fail _ | .exit _ => []
  | .goto pc state stack _ => [⟨pc, state, stack⟩]
  | .branch target fallPc b => [⟨fallPc, b.fall, b.fallStack⟩, ⟨target, b.taken, b.takenStack⟩]

/-- The ids handed out after an outcome. -/
def nextId (idGen : ℕ) : Outcome → ℕ
  | .goto _ _ _ id => id
  | .fail _ | .exit _ | .branch .. => idGen

/-- The error an outcome reports. -/
def error : Outcome → Option VerifyError
  | .fail e => some e
  | .exit e => e
  | .goto .. | .branch .. => none

end Outcome

namespace Walk

variable (p : Program) (m : Walk)

/-- One more instruction counted. -/
def counted : Walk := { m with totalVisited := m.totalVisited + 1 }

/-- The visit made on this pass of the loop, unless the walk pops, breaks or gives up. -/
def visit : Option Visit :=
  match m.current p with
  | none => none
  | some (pc, insn) =>
    if COMPLEXITY_LIMIT < m.counted.totalVisited then none
    else if m.counted.dominated pc then none
    else
      let m' := m.counted.record p pc
      some ⟨pc, insn, m'.state, m'.stack, m'.idGen⟩

/-- The state the walk stands at, if it stands anywhere. -/
def here : List WorkItem :=
  match m.pc with
  | some pc => [⟨pc, m.state, m.stack⟩]
  | none => []

/-- Everything still to be explored: the current state and the deferred branches. -/
def pending : List WorkItem := m.here ++ m.backtrack

/-! ## One pass -/

/-- **What one pass of the loop can do.** -/
inductive Pass : Control Walk → Prop
  /-- The path has ended. -/
  | ended : m.current p = none → Pass m.popOrBreak
  /-- The complexity limit is exceeded. -/
  | limit {m' : Walk} : m'.errors ≠ [] → Pass (.halt m')
  /-- An explored state subsumes the current one. -/
  | dominated {pc : ℕ} {insn : BpfInsn} : m.current p = some (pc, insn) →
      m.totalVisited < COMPLEXITY_LIMIT → m.dominated pc = true → Pass m.counted.popOrBreak
  /-- The instruction is processed. -/
  | visit {v : Visit} : m.visit p = some v → m.totalVisited < COMPLEXITY_LIMIT →
      Pass (.next ((m.counted.record p v.pc).follow (v.outcome p)))

theorem pass : Pass p m (m.step p) := by
  unfold step
  cases hcur : m.current p with
  | none => exact .ended hcur
  | some at_ =>
    obtain ⟨pc, insn⟩ := at_
    dsimp only
    split
    · exact .limit (by simp)
    · next hlim =>
      have hlt : m.totalVisited < COMPLEXITY_LIMIT := by omega
      split
      · next hdom => exact .dominated hcur hlt hdom
      · next hdom =>
        refine .visit (v := ⟨pc, insn, _, _, _⟩) ?_ hlt
        have hdom' : m.counted.dominated pc = false := Bool.eq_false_iff.mpr hdom
        have hlim' : ¬ COMPLEXITY_LIMIT < m.counted.totalVisited := hlim
        rw [visit, hcur]
        simp only [if_neg hlim', hdom', Bool.false_eq_true, if_false]
        rfl

/-- What recording the current state does. -/
inductive Recorded (pc : ℕ) : Walk → Prop
  /-- The state widens the one stored at a back-edge target. -/
  | widened {regs : VerifierState} {stack : StackState} {rest : List (VerifierState × StackState)} :
      m.explored pc = (regs, stack) :: rest →
      Recorded pc { m with
        explored := Function.update m.explored pc
          ((regs.widen m.state, stack.widen m.stack) :: rest)
        state := regs.widen m.state
        stack := stack.widen m.stack }
  | stored : Recorded pc { m with
      explored := Function.update m.explored pc (m.explored pc ++ [(m.state, m.stack)]) }
  /-- The instruction has its quota of states already. -/
  | full : Recorded pc m

theorem recorded (pc : ℕ) : m.Recorded pc (m.record p pc) := by
  unfold record
  split
  · next hcons => exact .widened hcons
  · split
    · exact .stored
    · exact .full

/-- Recording touches the current state and the explored states only. -/
theorem Recorded.rest {pc : ℕ} {m m' : Walk} (h : m.Recorded pc m') :
    m'.errors = m.errors ∧ m'.totalVisited = m.totalVisited ∧ m'.idGen = m.idGen ∧
      m'.backtrack = m.backtrack := by
  cases h <;> exact ⟨rfl, rfl, rfl, rfl⟩

/-- The visit of a pass, read back. -/
theorem of_visit {v : Visit} (h : m.visit p = some v) :
    m.current p = some (v.pc, v.insn) ∧ m.dominated v.pc = false ∧
      v.state = (m.counted.record p v.pc).state ∧ v.stack = (m.counted.record p v.pc).stack ∧
      v.idGen = m.idGen := by
  unfold visit at h
  split at h
  · cases h
  · next pc insn hcur =>
    split at h
    · cases h
    · split at h
      · cases h
      · next hdom =>
        obtain rfl := Option.some.inj h
        exact ⟨hcur, Bool.eq_false_iff.mpr hdom, rfl, rfl, (recorded p m.counted pc).rest.2.2.1⟩

/-- A visit is made within the limit. -/
theorem lt_of_visit {v : Visit} (h : m.visit p = some v) : m.totalVisited < COMPLEXITY_LIMIT := by
  unfold visit at h
  split at h
  · cases h
  · split at h
    · cases h
    · next hlim => exact Nat.not_lt.mp hlim

/-- Where the walk stands, the instruction is the programme's. -/
theorem of_current {pc : ℕ} {insn : BpfInsn} (h : m.current p = some (pc, insn)) :
    m.pc = some pc ∧ p.instructions[pc]? = some insn := by
  obtain ⟨pc', hpc, hmap⟩ := Option.bind_eq_some_iff.mp h
  obtain ⟨insn', hinsn, heq⟩ := Option.map_eq_some_iff.mp hmap
  obtain ⟨rfl, rfl⟩ := Prod.mk.inj heq
  exact ⟨hpc, hinsn⟩

theorem here_of_current {pc : ℕ} {insn : BpfInsn} (h : m.current p = some (pc, insn)) :
    m.here = [⟨pc, m.state, m.stack⟩] := by
  rw [here, (of_current p m h).1]

/-- A walk that stands at no instruction stands nowhere, or past the end. -/
theorem ends_of_current_eq_none (h : m.current p = none) :
    ∀ i ∈ m.here, p.instructions.length ≤ i.pc := by
  intro i hi
  unfold here at hi
  split at hi
  · next pc hpc =>
    obtain rfl := List.mem_singleton.mp hi
    simpa [current, hpc] using h
  · simp at hi

/-- Following an outcome replaces the current state by the successors. -/
theorem pending_follow (o : Outcome) : (m.follow o).pending = o.successors ++ m.backtrack := by
  cases o <;> rfl

theorem errors_follow (o : Outcome) : (m.follow o).errors = m.errors ++ o.error.toList := by
  cases o <;> simp [follow, Outcome.error]

theorem totalVisited_follow (o : Outcome) : (m.follow o).totalVisited = m.totalVisited := by
  cases o <;> rfl

theorem idGen_follow (o : Outcome) : (m.follow o).idGen = o.nextId m.idGen := by
  cases o <;> rfl

theorem explored_follow (o : Outcome) : (m.follow o).explored = m.explored := by
  cases o <;> rfl

/-- Taking back a branch changes where the walk stands. -/
theorem of_popOrBreak {m' : Walk} (h : m.popOrBreak = .next m' ∨ m.popOrBreak = .halt m') :
    m'.errors = m.errors ∧ m'.totalVisited = m.totalVisited ∧ m'.idGen = m.idGen ∧
      m'.explored = m.explored := by
  unfold popOrBreak at h
  split at h
  · obtain h | h := h
    · cases h
      exact ⟨rfl, rfl, rfl, rfl⟩
    · cases h
  · obtain h | h := h
    · cases h
    · cases h
      exact ⟨rfl, rfl, rfl, rfl⟩

/-! ## Termination -/

/-- Visits left, and deferred branches. -/
def measure : ℕ := 2 * (COMPLEXITY_LIMIT - m.totalVisited) + m.backtrack.length

theorem measure_popOrBreak {m' : Walk} (h : m.popOrBreak = .next m') : m'.measure < m.measure := by
  unfold popOrBreak at h
  split at h
  · next hb =>
    cases h
    simp [measure, hb]
  · cases h

theorem measure_counted (h : m.totalVisited < COMPLEXITY_LIMIT) :
    m.counted.measure + 2 = m.measure := by
  simp only [measure, counted]
  omega

theorem measure_follow (o : Outcome) : (m.follow o).measure ≤ m.measure + 1 := by
  cases o with
  | branch target fallPc b =>
    simp only [measure, follow, List.length_cons]
    omega
  | _ => simp [measure, follow]

theorem measure_record (pc : ℕ) : (m.record p pc).measure = m.measure := by
  obtain ⟨-, hvisited, -, hback⟩ := (recorded p m pc).rest
  rw [measure, measure, hvisited, hback]

/-- Every pass that goes round again leaves less to do. -/
theorem measure_step {m' : Walk} (h : m.step p = .next m') : m'.measure < m.measure := by
  generalize hc : m.step p = c at h
  have hpass := pass p m
  rw [hc] at hpass
  cases hpass with
  | ended _ => exact measure_popOrBreak m h
  | limit _ => cases h
  | dominated _ hlt _ =>
    have h₁ := measure_popOrBreak m.counted h
    have h₂ := measure_counted m hlt
    omega
  | @visit v _ hlt =>
    cases h
    have h₁ := measure_follow (m.counted.record p v.pc) (v.outcome p)
    have h₂ := measure_record p m.counted v.pc
    have h₃ := measure_counted m hlt
    omega

end Walk

/-! ## The walk as an exploration -/

/-- The visits the walk of a programme makes. -/
def Program.Visits (p : Program) (v : Visit) : Prop :=
  ∃ m, Reaches (Walk.step p) .initial m ∧ m.visit p = some v

theorem Program.Visits.insn_eq {p : Program} {v : Visit} (h : p.Visits v) :
    p.instructions[v.pc]? = some v.insn := by
  obtain ⟨m, -, hv⟩ := h
  exact (Walk.of_current p m (Walk.of_visit p m hv).1).2

/-- A test of every visit of the walk. -/
theorem Program.forall_visits {p : Program} {test : Visit → Bool}
    (h : testAll (Walk.step p) (fun m => (m.visit p).all test) LOOP_FUEL .initial = true) :
    ∀ v, p.Visits v → test v = true := by
  rintro v ⟨m, hr, hv⟩
  have hm := of_testAll h hr
  rwa [hv] at hm

/-- The exploration a walk performs, up to a relation `Cov` between states. -/
def Program.explorer (p : Program)
    (Cov : VerifierState → StackState → VerifierState → StackState → Prop) :
    Explorer WorkItem Visit where
  covers i v := i.pc = v.pc ∧ Cov i.state i.stack v.state v.stack
  succ v := (v.outcome p).successors
  ends i := p.instructions.length ≤ i.pc

/-- Where every walk starts. -/
def WorkItem.entry : WorkItem := ⟨0, .entry, .new⟩

/-- Pruning and recording lose nothing that `Cov` keeps. -/
structure Program.Respects (p : Program)
    (Cov : VerifierState → StackState → VerifierState → StackState → Prop) : Prop where
  dominated : ∀ m, Reaches (Walk.step p) .initial m → ∀ pc insn, m.current p = some (pc, insn) →
    m.dominated pc = true → ∃ e ∈ m.explored pc, Cov m.state m.stack e.1 e.2
  visited : ∀ m, Reaches (Walk.step p) .initial m → ∀ v, m.visit p = some v →
    Cov m.state m.stack v.state v.stack

/-- A walk with the visits it has made. -/
structure Traced (p : Program)
    (Cov : VerifierState → StackState → VerifierState → StackState → Prop) (vs : List Visit)
    (m : Walk) : Prop where
  explores : (p.explorer Cov).Explores .entry vs m.pending
  explored : ∀ pc, ∀ e ∈ m.explored pc, ∃ v ∈ vs, v.pc = pc ∧ v.state = e.1 ∧ v.stack = e.2
  visits : ∀ v ∈ vs, p.Visits v
  clean : m.errors = [] → ∀ v ∈ vs, (v.outcome p).error = none

section

variable {p : Program} {Cov : VerifierState → StackState → VerifierState → StackState → Prop}
  {vs : List Visit} {m : Walk}

theorem traced_initial : Traced p Cov [] .initial where
  explores := .start
  explored _ _ he := absurd he (by simp [Walk.initial])
  visits _ hv := absurd hv (by simp)
  clean _ _ hv := absurd hv (by simp)

/-- A settled current state is dropped. -/
theorem Traced.drop (h : Traced p Cov vs m)
    (hhere : ∀ i ∈ m.here, (p.explorer Cov).Settled vs i) :
    (p.explorer Cov).Explores .entry vs m.backtrack := by
  have hex := h.explores
  unfold Walk.pending at hex
  cases hh : m.here with
  | nil => rwa [hh] at hex
  | cons i rest =>
    have hrest : rest = [] := by
      unfold Walk.here at hh
      split at hh <;> simp_all
    rw [hh, hrest] at hex
    exact .drop hex (hhere i (by rw [hh]; exact List.mem_cons_self))

/-- Popping a deferred branch makes it the current state. -/
theorem Traced.pop (h : Traced p Cov vs m) {m' : Walk}
    (hhere : ∀ i ∈ m.here, (p.explorer Cov).Settled vs i) (hpop : m.popOrBreak = .next m') :
    Traced p Cov vs m' := by
  have hex := h.drop hhere
  unfold Walk.popOrBreak at hpop
  split at hpop
  · next item rest hb =>
    cases hpop
    exact ⟨by rwa [hb] at hex, h.explored, h.visits, h.clean⟩
  · cases hpop

/-- A dominated state is settled by the visit that stored the subsuming one. -/
theorem Traced.settled_of_dominated (h : Traced p Cov vs m) (hresp : p.Respects Cov)
    (hr : Reaches (Walk.step p) .initial m) {pc : ℕ} {insn : BpfInsn}
    (hcur : m.current p = some (pc, insn)) (hdom : m.dominated pc = true) :
    ∀ i ∈ m.here, (p.explorer Cov).Settled vs i := by
  intro i hi
  rw [Walk.here_of_current p m hcur] at hi
  obtain rfl := List.mem_singleton.mp hi
  obtain ⟨e, he, hcov⟩ := hresp.dominated m hr pc insn hcur hdom
  obtain ⟨v, hv, hpc, hstate, hstack⟩ := h.explored pc e he
  refine Or.inr ⟨v, hv, hpc.symm, ?_⟩
  rw [hstate, hstack]
  exact hcov

/-- A visit adds itself to the trace, and to the stored states. -/
theorem Traced.visit (h : Traced p Cov vs m) (hresp : p.Respects Cov)
    (hr : Reaches (Walk.step p) .initial m) {v : Visit} (hv : m.visit p = some v) :
    Traced p Cov (v :: vs) ((m.counted.record p v.pc).follow (v.outcome p)) := by
  obtain ⟨hcur, -, hstate, hstack, -⟩ := Walk.of_visit p m hv
  have hfollow (m' : Walk) (o : Outcome) : (m'.follow o).explored = m'.explored := by
    cases o <;> rfl
  have hrec := Walk.recorded p m.counted v.pc
  refine ⟨?_, ?_, ?_, ?_⟩
  · have hex := h.explores
    rw [Walk.pending, Walk.here_of_current p m hcur] at hex
    rw [Walk.pending_follow, hrec.rest.2.2.2]
    exact .visit hex ⟨rfl, hresp.visited m hr v hv⟩
  · intro pc e he
    rw [hfollow] at he
    -- an entry is either an old one or the state just visited
    have hsplit : e ∈ m.explored pc ∨ pc = v.pc ∧ e = (v.state, v.stack) := by
      rw [hstate, hstack]
      generalize m.counted.record p v.pc = m' at he hrec
      cases hrec with
      | @widened regs stack rest hcons =>
        by_cases hpc : pc = v.pc
        · subst hpc
          simp only [Function.update_self, List.mem_cons] at he
          rcases he with rfl | hrest
          · exact Or.inr ⟨rfl, rfl⟩
          · refine Or.inl ?_
            rw [show m.explored v.pc = m.counted.explored v.pc from rfl, hcons]
            exact List.mem_cons_of_mem _ hrest
        · simp only [Function.update_of_ne hpc] at he
          exact Or.inl he
      | stored =>
        by_cases hpc : pc = v.pc
        · subst hpc
          simp only [Function.update_self, List.mem_append, List.mem_singleton] at he
          exact he.imp_right fun h => ⟨rfl, h⟩
        · simp only [Function.update_of_ne hpc] at he
          exact Or.inl he
      | full => exact Or.inl he
    rcases hsplit with hold | ⟨rfl, rfl⟩
    · obtain ⟨v', hv', hpc⟩ := h.explored pc e hold
      exact ⟨v', List.mem_cons_of_mem _ hv', hpc⟩
    · exact ⟨v, List.mem_cons_self, rfl, rfl, rfl⟩
  · intro v' hv'
    rcases List.mem_cons.mp hv' with rfl | hv'
    · exact ⟨m, hr, hv⟩
    · exact h.visits v' hv'
  · intro hnil v' hv'
    have herr : (m.counted.record p v.pc).errors = m.errors := hrec.rest.1
    have hboth : m.errors = [] ∧ (v.outcome p).error = none := by
      cases ho : v.outcome p with
      | fail e => simp [ho, Walk.follow] at hnil
      | exit e => simpa [ho, Walk.follow, herr, Outcome.error] using hnil
      | goto _ _ _ _ => simpa [ho, Walk.follow, herr, Outcome.error] using hnil
      | branch _ _ _ => simpa [ho, Walk.follow, herr, Outcome.error] using hnil
    rcases List.mem_cons.mp hv' with rfl | hv'
    · exact hboth.2
    · exact h.clean hboth.1 v' hv'

/-- **Every walk the loop reaches has a trace.** -/
theorem exists_traced (hresp : p.Respects Cov) (hr : Reaches (Walk.step p) .initial m) :
    ∃ vs, Traced p Cov vs m := by
  refine hr.invariant (I := fun m => ∃ vs, Traced p Cov vs m) ⟨[], traced_initial⟩ ?_
  rintro m m' hr ⟨vs, htr⟩ hstep
  generalize hc : m.step p = c at hstep
  have hpass := Walk.pass p m
  rw [hc] at hpass
  cases hpass with
  | ended hcur =>
    exact ⟨vs, htr.pop (fun i hi => Or.inl (Walk.ends_of_current_eq_none p m hcur i hi)) hstep⟩
  | limit _ => cases hstep
  | @dominated pc insn hcur _ hdom =>
    have hcounted : Traced p Cov vs m.counted := ⟨htr.explores, htr.explored, htr.visits, htr.clean⟩
    exact ⟨vs, hcounted.pop (htr.settled_of_dominated hresp hr hcur hdom) hstep⟩
  | @visit v hv _ =>
    cases hstep
    exact ⟨v :: vs, htr.visit hresp hr hv⟩

end

/-! ## Accepted programmes -/

/-- The programme is accepted: `check_with_relocs` reports no error. -/
def Program.Accepted (p : Program) : Prop := (checkWithRelocs p).passed = true

instance (p : Program) : Decidable p.Accepted := inferInstanceAs (Decidable (_ = _))

/-- An accepted walk ends with no errors. -/
theorem Program.Accepted.final {p : Program} (h : p.Accepted) :
    ∃ m m', Reaches (Walk.step p) .initial m ∧ m.step p = .halt m' ∧ m'.errors = [] := by
  obtain ⟨m, hr, hhalt⟩ := exists_halt (fun _ _ hs => Walk.measure_step p _ hs) LOOP_FUEL .initial
    (show Walk.measure .initial < LOOP_FUEL by simp [Walk.measure, Walk.initial, LOOP_FUEL])
  refine ⟨m, _, hr, hhalt, ?_⟩
  unfold Program.Accepted CheckResult.passed checkWithRelocs at h
  split at h
  · simp at h
  · simp only [List.isEmpty_iff, dedupErrors_eq_nil] at h
    unfold Walk.report at h
    split at h
    · simp at h
    · exact h

/-- **The visits of an accepted programme are closed**, and none of them reports an error. -/
theorem Program.Accepted.closed {p : Program} (h : p.Accepted)
    {Cov : VerifierState → StackState → VerifierState → StackState → Prop}
    (hresp : p.Respects Cov) :
    ∃ vs, (p.explorer Cov).Closed .entry vs ∧
      ∀ v ∈ vs, p.Visits v ∧ (v.outcome p).error = none := by
  obtain ⟨m, m', hr, hhalt, herr⟩ := h.final
  obtain ⟨vs, htr⟩ := exists_traced hresp hr
  -- the loop leaves with nothing deferred, and with the current state settled
  have hpop (m₁ : Walk) (hp : m₁.popOrBreak = .halt m') : m₁.backtrack = [] ∧ m₁ = m' := by
    unfold Walk.popOrBreak at hp
    split at hp
    · cases hp
    · next hb => exact ⟨hb, by injection hp⟩
  have hfinal : m.backtrack = [] ∧ m.errors = [] ∧
      ∀ i ∈ m.here, (p.explorer Cov).Settled vs i := by
    generalize hc : m.step p = c at hhalt
    have hpass := Walk.pass p m
    rw [hc] at hpass
    cases hpass with
    | ended hcur =>
      obtain ⟨hb, rfl⟩ := hpop _ hhalt
      exact ⟨hb, herr, fun i hi => Or.inl (Walk.ends_of_current_eq_none p m hcur i hi)⟩
    | limit hne =>
      cases hhalt
      exact absurd herr hne
    | @dominated pc insn hcur _ hdom =>
      obtain ⟨hb, rfl⟩ := hpop _ hhalt
      exact ⟨hb, herr, htr.settled_of_dominated hresp hr hcur hdom⟩
    | visit _ _ => cases hhalt
  obtain ⟨hb, hnil, hhere⟩ := hfinal
  have hex := htr.drop hhere
  rw [hb] at hex
  exact ⟨vs, hex.closed, fun v hv => ⟨htr.visits v hv, htr.clean hnil v hv⟩⟩

end BpfVerifier
