import Mathlib.Tactic.Common

/-!
# Machinery/Loop — a `loop { … break … }` as an iterated step

`iterate` runs a body with fuel; `Reaches` is the same loop without fuel, the states met at the top
of the body.  `exists_halt` trades the fuel for a decreasing measure, so that facts about the value
a loop returns follow from invariants of `Reaches` alone; the measure also bounds the number of
passes (`endsWithin_of_measure`).  A body that stops the whole programme at some states is the same
loop over optional states (`guarded`): it leaves with no value exactly when it reaches one of them
(`iterate_guarded_eq_none`).
-/

/-- What one pass through the body of a loop does: go round again, or leave. -/
inductive Control (σ : Type*) where
  | next (s : σ)
  | halt (s : σ)

namespace Loop

variable {σ : Type*} (step : σ → Control σ)

/-- Run the body until it leaves the loop, or the fuel is gone. -/
def iterate : ℕ → σ → σ
  | 0, s => s
  | fuel + 1, s =>
    match step s with
    | .next s' => iterate fuel s'
    | .halt s' => s'

/-- The states met at the top of the loop entered at `s₀`. -/
inductive Reaches (s₀ : σ) : σ → Prop
  | start : Reaches s₀ s₀
  | next {s s' : σ} : Reaches s₀ s → step s = .next s' → Reaches s₀ s'

variable {step}

/-- **The invariant rule.** -/
theorem Reaches.invariant {s₀ s : σ} {I : σ → Prop} (h : Reaches step s₀ s) (h₀ : I s₀)
    (hstep : ∀ {s s'}, Reaches step s₀ s → I s → step s = .next s' → I s') : I s := by
  induction h with
  | start => exact h₀
  | next hr hs ih => exact hstep hr ih hs

/-- One pass at the front of a run. -/
theorem Reaches.cons {s₀ s₁ s : σ} (h₁ : step s₀ = .next s₁) (h : Reaches step s₁ s) :
    Reaches step s₀ s := by
  induction h with
  | start => exact .next .start h₁
  | next _ hs ih => exact .next ih hs

/-- A state is reached at once or through the first pass. -/
theorem reaches_iff {s₀ s : σ} :
    Reaches step s₀ s ↔ s = s₀ ∨ ∃ s₁, step s₀ = .next s₁ ∧ Reaches step s₁ s := by
  constructor
  · intro h
    induction h with
    | start => exact Or.inl rfl
    | next _ hs ih =>
      rcases ih with rfl | ⟨s₁, h₁, hr₁⟩
      · exact Or.inr ⟨_, hs, .start⟩
      · exact Or.inr ⟨s₁, h₁, .next hr₁ hs⟩
  · rintro (rfl | ⟨s₁, h₁, hr⟩)
    · exact .start
    · exact .cons h₁ hr

/-- **With a decreasing measure the fuel does not run out**: the loop leaves through a `halt`. -/
theorem exists_halt {μ : σ → ℕ} (hμ : ∀ s s', step s = .next s' → μ s' < μ s) :
    ∀ (fuel : ℕ) (s : σ), μ s < fuel →
      ∃ m, Reaches step s m ∧ step m = .halt (iterate step fuel s)
  | 0, _, h => absurd h (Nat.not_lt_zero _)
  | fuel + 1, s, h => by
      cases hs : step s with
      | halt s' => exact ⟨s, .start, by simp only [iterate, hs]⟩
      | next s' =>
        have hlt : μ s' < fuel := Nat.lt_of_lt_of_le (hμ s s' hs) (Nat.lt_succ_iff.mp h)
        obtain ⟨m, hm, hhalt⟩ := exists_halt hμ fuel s' hlt
        exact ⟨m, .cons hs hm, by simpa only [iterate, hs] using hhalt⟩

/-- The loop leaves within a number of passes. -/
def endsWithin (step : σ → Control σ) : ℕ → σ → Bool
  | 0, _ => false
  | passes + 1, s =>
    match step s with
    | .next s' => endsWithin step passes s'
    | .halt _ => true

/-- **A decreasing measure bounds the passes.** -/
theorem endsWithin_of_measure {μ : σ → ℕ} (hμ : ∀ s s', step s = .next s' → μ s' < μ s) :
    ∀ (passes : ℕ) (s : σ), μ s < passes → endsWithin step passes s = true
  | 0, _, h => absurd h (Nat.not_lt_zero _)
  | passes + 1, s, h => by
      cases hs : step s with
      | halt s' => simp only [endsWithin, hs]
      | next s' =>
        have hlt : μ s' < passes := Nat.lt_of_lt_of_le (hμ s s' hs) (Nat.lt_succ_iff.mp h)
        simp only [endsWithin, hs, endsWithin_of_measure hμ passes s' hlt]

/-! ## A body that may stop the programme -/

/-- The loop that stops with no value at the states `bad` picks out. -/
def guarded (step : σ → Control σ) (bad : σ → Bool) : Option σ → Control (Option σ)
  | none => .halt none
  | some s =>
    if bad s then .halt none
    else
      match step s with
      | .next s' => .next (some s')
      | .halt s' => .halt (some s')

section

variable {bad : σ → Bool}

theorem guarded_of_bad {s : σ} (h : bad s = true) : guarded step bad (some s) = .halt none :=
  if_pos h

theorem guarded_next {s s' : σ} (h : bad s = false) (hs : step s = .next s') :
    guarded step bad (some s) = .next (some s') := by
  simp only [guarded, h, hs, Bool.false_eq_true, if_false]

theorem guarded_halt {s s' : σ} (h : bad s = false) (hs : step s = .halt s') :
    guarded step bad (some s) = .halt (some s') := by
  simp only [guarded, h, hs, Bool.false_eq_true, if_false]

/-- What a pass of the guarded loop goes on to, the loop goes on to. -/
theorem of_guarded_next {o o' : Option σ} (h : guarded step bad o = .next o') :
    ∃ s s', o = some s ∧ o' = some s' ∧ step s = .next s' := by
  cases o with
  | none => cases h
  | some s =>
    cases hbad : bad s with
    | true =>
      rw [guarded_of_bad hbad] at h
      cases h
    | false =>
      cases hs : step s with
      | next s' =>
        rw [guarded_next hbad hs] at h
        exact ⟨s, s', rfl, (Control.next.inj h).symm, hs⟩
      | halt s' =>
        rw [guarded_halt hbad hs] at h
        cases h

/-- **The guarded loop meets states of the loop only.** -/
theorem Reaches.of_guarded {s₀ : σ} {o : Option σ} (h : Reaches (guarded step bad) (some s₀) o) :
    ∃ s, o = some s ∧ Reaches step s₀ s := by
  induction h with
  | start => exact ⟨s₀, rfl, .start⟩
  | next _ hs ih =>
    obtain ⟨s, rfl, hr⟩ := ih
    obtain ⟨s₁, s', hs₁, rfl, hstep⟩ := of_guarded_next hs
    obtain rfl := Option.some.inj hs₁
    exact ⟨s', rfl, .next hr hstep⟩

/-- The measure of the loop serves the guarded one. -/
theorem guarded_measure {μ : σ → ℕ} (hμ : ∀ s s', step s = .next s' → μ s' < μ s)
    (o o' : Option σ) (h : guarded step bad o = .next o') : o'.elim 0 μ < o.elim 0 μ := by
  obtain ⟨s, s', rfl, rfl, hs⟩ := of_guarded_next h
  exact hμ s s' hs

/-- **A loop that meets no bad state is not stopped.** -/
theorem iterate_guarded :
    ∀ (fuel : ℕ) (s : σ), (∀ s', Reaches step s s' → bad s' = false) →
      iterate (guarded step bad) fuel (some s) = some (iterate step fuel s)
  | 0, _, _ => rfl
  | fuel + 1, s, h => by
      have hbad := h s .start
      cases hs : step s with
      | halt s' => simp only [iterate, guarded_halt hbad hs, hs]
      | next s' =>
        simp only [iterate, guarded_next hbad hs, hs]
        exact iterate_guarded fuel s' fun s'' hr => h s'' (.cons hs hr)

/-- **A loop that meets a bad state leaves with no value.** -/
theorem iterate_guarded_eq_none {μ : σ → ℕ} (hμ : ∀ s s', step s = .next s' → μ s' < μ s) :
    ∀ (fuel : ℕ) (s s' : σ), μ s < fuel → Reaches step s s' → bad s' = true →
      iterate (guarded step bad) fuel (some s) = none
  | 0, _, _, h, _, _ => absurd h (Nat.not_lt_zero _)
  | fuel + 1, s, s', hfuel, hr, hbad => by
      cases hs : bad s with
      | true => simp only [iterate, guarded_of_bad hs]
      | false =>
        rcases reaches_iff.mp hr with rfl | ⟨s₁, h₁, hr₁⟩
        · rw [hbad] at hs
          cases hs
        · have hlt : μ s₁ < fuel :=
            Nat.lt_of_lt_of_le (hμ s s₁ h₁) (Nat.lt_succ_iff.mp hfuel)
          simp only [iterate, guarded_next hs h₁]
          exact iterate_guarded_eq_none hμ fuel s₁ s' hlt hr₁ hbad

end

/-! ## Testing every state a loop meets -/

/-- Whether `p` holds at the top of every pass of a loop that leaves within the fuel. -/
def testAll (step : σ → Control σ) (p : σ → Bool) : ℕ → σ → Bool
  | 0, _ => false
  | fuel + 1, s =>
    p s && match step s with
      | .next s' => testAll step p fuel s'
      | .halt _ => true

/-- **A passed test holds of every state of the run.** -/
theorem of_testAll {p : σ → Bool} :
    ∀ {fuel : ℕ} {s₀ s : σ}, testAll step p fuel s₀ = true → Reaches step s₀ s → p s = true
  | 0, _, _, h, _ => absurd h (by simp [testAll])
  | fuel + 1, s₀, s, h, hr => by
      obtain ⟨hp, hrest⟩ := Bool.and_eq_true_iff.mp h
      -- the run either stops here or its first pass is the one the test went through
      rcases reaches_iff.mp hr with rfl | ⟨s₁, h₁, hr₁⟩
      · exact hp
      · rw [h₁] at hrest
        exact of_testAll hrest hr₁

end Loop
