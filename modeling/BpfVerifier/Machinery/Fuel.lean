import Mathlib.Tactic.Common

/-!
# Machinery/Fuel — a fetch–execute loop with fuel

`Interp` is an interpreter cut into its fetch, its halting instructions and its step.  `run` is the
loop with fuel and `after` the state a number of steps on; `run_eq_some_iff` and `run_eq_none_iff`
trade the fuel for `after`, so that facts about runs of every length follow from one step.
`after_remembers` finds the step that last wrote a part of the state.
-/

/-- An interpreter loop over states `σ` and instructions `ι`. -/
structure Interp (σ ι : Type*) where
  fetch : σ → Option ι
  halts : ι → Bool
  exec : σ → ι → Option σ

namespace Interp

variable {σ ι : Type*} (M : Interp σ ι)

/-- Run until a halting instruction; `none` when the fuel is gone, nothing is fetched or an
instruction fails. -/
def run : ℕ → σ → Option σ
  | 0, _ => none
  | fuel + 1, s =>
    match M.fetch s with
    | none => none
    | some i =>
      if M.halts i then some s
      else match M.exec s i with
        | none => none
        | some s' => run fuel s'

/-- One step, of an instruction that does not halt. -/
def next (s : σ) : Option σ :=
  match M.fetch s with
  | none => none
  | some i => if M.halts i then none else M.exec s i

/-- The state `n` steps on. -/
def after : ℕ → σ → Option σ
  | 0, s => some s
  | n + 1, s => (M.next s).bind (after n)

/-- The next instruction halts. -/
def Halted (s : σ) : Prop := ∃ i, M.fetch s = some i ∧ M.halts i = true

/-- The loop neither halts here nor goes on. -/
def Stuck (s : σ) : Prop := ¬M.Halted s ∧ M.next s = none

variable {M}

@[simp] theorem after_zero (s : σ) : M.after 0 s = some s := rfl

theorem after_succ (n : ℕ) (s : σ) : M.after (n + 1) s = (M.next s).bind (M.after n) := rfl

/-- What a step does. -/
theorem next_eq_some_iff {s s' : σ} :
    M.next s = some s' ↔ ∃ i, M.fetch s = some i ∧ M.halts i = false ∧ M.exec s i = some s' := by
  unfold next
  cases M.fetch s with
  | none => simp
  | some i => cases h : M.halts i <;> simp [h]

theorem next_of_fetch {s : σ} {i : ι} (h : M.fetch s = some i) :
    M.next s = if M.halts i then none else M.exec s i := by
  simp only [next, h]

theorem next_of_fetch_none {s : σ} (h : M.fetch s = none) : M.next s = none := by
  simp only [next, h]

theorem Halted.next_eq_none {s : σ} (h : M.Halted s) : M.next s = none := by
  obtain ⟨i, hfetch, hi⟩ := h
  simp [next, hfetch, hi]

/-- A run of a state that goes on is the run of the next one. -/
theorem run_succ_of_next {s s' : σ} (h : M.next s = some s') (n : ℕ) :
    M.run (n + 1) s = M.run n s' := by
  obtain ⟨i, hfetch, hi, hexec⟩ := next_eq_some_iff.mp h
  simp [run, hfetch, hi, hexec]

theorem run_succ_of_halted {s : σ} (h : M.Halted s) (n : ℕ) : M.run (n + 1) s = some s := by
  obtain ⟨i, hfetch, hi⟩ := h
  simp [run, hfetch, hi]

theorem run_of_stuck {s : σ} (h : M.Stuck s) (n : ℕ) : M.run n s = none := by
  cases n with
  | zero => rfl
  | succ n =>
    obtain ⟨hhalt, hnext⟩ := h
    cases hfetch : M.fetch s with
    | none => simp [run, hfetch]
    | some i =>
      have hi : M.halts i = false := by
        by_contra hi
        exact hhalt ⟨i, hfetch, by simpa using hi⟩
      have hexec : M.exec s i = none := by simpa [next, hfetch, hi] using hnext
      simp [run, hfetch, hi, hexec]

/-- At every state the loop halts, goes on or is stuck. -/
theorem halted_or_next_or_stuck (s : σ) :
    M.Halted s ∨ (∃ s', M.next s = some s') ∨ M.Stuck s := by
  by_cases hhalt : M.Halted s
  · exact Or.inl hhalt
  · cases hnext : M.next s with
    | none => exact Or.inr (Or.inr ⟨hhalt, hnext⟩)
    | some s' => exact Or.inr (Or.inl ⟨s', rfl⟩)

/-! ## Steps -/

/-- The last step of `n + 1`. -/
theorem after_succ_eq (n : ℕ) (s : σ) : M.after (n + 1) s = (M.after n s).bind M.next := by
  induction n generalizing s with
  | zero => cases h : M.next s <;> simp [after, h]
  | succ n ih =>
    rw [after_succ, after_succ]
    cases M.next s with
    | none => rfl
    | some s' => exact ih s'

theorem after_add (m n : ℕ) (s : σ) : M.after (m + n) s = (M.after m s).bind (M.after n) := by
  induction m generalizing s with
  | zero => simp
  | succ m ih =>
    rw [Nat.succ_add, after_succ, after_succ]
    cases M.next s with
    | none => rfl
    | some s' => exact ih s'

/-- A run that takes `n` steps takes every smaller number of them. -/
theorem exists_after_of_le {k n : ℕ} (hk : k ≤ n) {s t : σ} (h : M.after n s = some t) :
    ∃ u, M.after k s = some u := by
  obtain ⟨m, rfl⟩ := Nat.exists_eq_add_of_le hk
  rw [after_add] at h
  obtain ⟨u, hu, -⟩ := Option.bind_eq_some_iff.mp h
  exact ⟨u, hu⟩

/-- The step at a position inside a run. -/
theorem next_of_after {k : ℕ} {s t u : σ} (ht : M.after k s = some t)
    (hu : M.after (k + 1) s = some u) : M.next t = some u := by
  rw [after_succ_eq, ht] at hu
  exact hu

/-- No step is taken from a halted state. -/
theorem after_of_halted {s : σ} (h : M.Halted s) {n : ℕ} {t : σ} (ht : M.after n s = some t) :
    n = 0 := by
  cases n with
  | zero => rfl
  | succ n => simp [after_succ, h.next_eq_none] at ht

/-- **The invariant rule**: what holds at the start and is kept by each step taken holds of every
state of the run. -/
theorem after_invariant {I : ℕ → σ → Prop} {s : σ} (h₀ : I 0 s)
    (hstep : ∀ {k : ℕ} {u u' : σ}, M.after k s = some u → M.next u = some u' → I k u →
      I (k + 1) u') :
    ∀ {n : ℕ} {t : σ}, M.after n s = some t → I n t
  | 0, t, ht => by
      obtain rfl := Option.some.inj ht
      exact h₀
  | n + 1, t, ht => by
      obtain ⟨u, hu⟩ := exists_after_of_le (Nat.le_succ n) ht
      exact hstep hu (next_of_after hu ht) (after_invariant h₀ hstep hu)

/-! ## Runs as steps -/

/-- **A run ends at a halted state reached with fuel to spare.** -/
theorem run_eq_some_iff {n : ℕ} {s t : σ} :
    M.run n s = some t ↔ ∃ k < n, M.after k s = some t ∧ M.Halted t := by
  induction n generalizing s with
  | zero => simp [run]
  | succ n ih =>
    rcases halted_or_next_or_stuck (M := M) s with hhalt | ⟨s', hnext⟩ | hstuck
    · rw [run_succ_of_halted hhalt]
      constructor
      · intro h
        obtain rfl := Option.some.inj h
        exact ⟨0, Nat.succ_pos n, rfl, hhalt⟩
      · rintro ⟨k, -, hk, -⟩
        obtain rfl := after_of_halted hhalt hk
        exact hk
    · rw [run_succ_of_next hnext, ih]
      constructor
      · rintro ⟨k, hk, hafter, ht⟩
        exact ⟨k + 1, Nat.succ_lt_succ hk, by rw [after_succ, hnext]; exact hafter, ht⟩
      · rintro ⟨k, hk, hafter, ht⟩
        cases k with
        | zero =>
          obtain rfl := Option.some.inj hafter
          rw [ht.next_eq_none] at hnext
          cases hnext
        | succ k =>
          rw [after_succ, hnext] at hafter
          exact ⟨k, Nat.lt_of_succ_lt_succ hk, hafter, ht⟩
    · rw [run_of_stuck hstuck]
      constructor
      · intro h
        cases h
      · rintro ⟨k, -, hafter, ht⟩
        cases k with
        | zero =>
          obtain rfl := Option.some.inj hafter
          exact absurd ht hstuck.1
        | succ k => simp [after_succ, hstuck.2] at hafter

/-- **A run gives nothing when it is stuck on the way or the fuel is used up.** -/
theorem run_eq_none_iff {n : ℕ} {s : σ} :
    M.run n s = none ↔
      (∃ t, M.after n s = some t) ∨ ∃ k < n, ∃ t, M.after k s = some t ∧ M.Stuck t := by
  induction n generalizing s with
  | zero => simp [run]
  | succ n ih =>
    rcases halted_or_next_or_stuck (M := M) s with hhalt | ⟨s', hnext⟩ | hstuck
    · rw [run_succ_of_halted hhalt]
      refine iff_of_false (by simp) ?_
      rintro (⟨t, ht⟩ | ⟨k, -, t, ht, hstuck⟩)
      · exact absurd (after_of_halted hhalt ht) (Nat.succ_ne_zero n)
      · obtain rfl := after_of_halted hhalt ht
        obtain rfl := Option.some.inj ht
        exact hstuck.1 hhalt
    · rw [run_succ_of_next hnext, ih]
      constructor
      · rintro (⟨t, ht⟩ | ⟨k, hk, t, ht, hstuck⟩)
        · exact Or.inl ⟨t, by rw [after_succ, hnext]; exact ht⟩
        · exact Or.inr ⟨k + 1, Nat.succ_lt_succ hk, t, by rw [after_succ, hnext]; exact ht, hstuck⟩
      · rintro (⟨t, ht⟩ | ⟨k, hk, t, ht, hstuck⟩)
        · rw [after_succ, hnext] at ht
          exact Or.inl ⟨t, ht⟩
        · cases k with
          | zero =>
            obtain rfl := Option.some.inj ht
            rw [hstuck.2] at hnext
            cases hnext
          | succ k =>
            rw [after_succ, hnext] at ht
            exact Or.inr ⟨k, Nat.lt_of_succ_lt_succ hk, t, ht, hstuck⟩
    · rw [run_of_stuck hstuck]
      exact iff_of_true rfl (Or.inr ⟨0, Nat.succ_pos n, s, rfl, hstuck⟩)

/-! ## More fuel -/

/-- **More fuel changes no result.** -/
theorem run_mono {m n : ℕ} (hmn : m ≤ n) {s t : σ} (h : M.run m s = some t) :
    M.run n s = some t := by
  obtain ⟨k, hk, hafter, ht⟩ := run_eq_some_iff.mp h
  exact run_eq_some_iff.mpr ⟨k, Nat.lt_of_lt_of_le hk hmn, hafter, ht⟩

/-- **More fuel gives no new result** to a loop that is stuck wherever it uses the fuel up. -/
theorem run_eq_of_stuck {m n : ℕ} (hmn : m ≤ n) {s : σ}
    (hstuck : ∀ t, M.after m s = some t → M.Stuck t) : M.run n s = M.run m s := by
  apply Option.ext
  intro t
  constructor
  · intro h
    obtain ⟨k, -, hafter, ht⟩ := run_eq_some_iff.mp h
    rcases Nat.lt_or_ge k m with hk | hk
    · exact run_eq_some_iff.mpr ⟨k, hk, hafter, ht⟩
    · obtain ⟨j, rfl⟩ := Nat.exists_eq_add_of_le hk
      obtain ⟨u, hu⟩ := exists_after_of_le hk hafter
      obtain ⟨hhalt, hnext⟩ := hstuck u hu
      rw [after_add, hu, Option.bind_some] at hafter
      cases j with
      | zero =>
        obtain rfl := Option.some.inj hafter
        exact absurd ht hhalt
      | succ j =>
        rw [after_succ, hnext] at hafter
        cases hafter
  · exact run_mono hmn

/-! ## What a run remembers -/

section Memory

variable {β : Type*}

variable (M) in
/-- Step `k` is the last of the first `n` whose instruction passes a test; `u` is the state it was
taken in. -/
structure LastStep (p : ι → Bool) (s : σ) (n k : ℕ) (u : σ) : Prop where
  lt : k < n
  reached : M.after k s = some u
  passes : (M.fetch u).any p = true
  later : ∀ j v, k < j → j < n → M.after j s = some v → (M.fetch v).any p = false

/-- **The memory rule**: what is overwritten by the instructions that pass a test, and kept by the
others, was written by the last of them; without one it is as at the start. -/
theorem after_remembers {p : ι → Bool} {f g : σ → β} {s : σ}
    (hstep : ∀ {u u' : σ}, M.next u = some u' →
      f u' = if (M.fetch u).any p then g u else f u) {n : ℕ} {t : σ} (ht : M.after n s = some t) :
    (∃ k u, M.LastStep p s n k u ∧ f t = g u) ∨
      (∀ j v, j < n → M.after j s = some v → (M.fetch v).any p = false) ∧ f t = f s := by
  refine after_invariant (I := fun n t => (∃ k u, M.LastStep p s n k u ∧ f t = g u) ∨
    (∀ j v, j < n → M.after j s = some v → (M.fetch v).any p = false) ∧ f t = f s) ?_ ?_ ht
  · exact Or.inr ⟨fun j v hj => absurd hj (Nat.not_lt_zero j), rfl⟩
  · intro n u u' hu hnext ih
    have hf := hstep hnext
    -- the state of step `n` is `u`
    have hlast {j : ℕ} {v : σ} (hj : j < n + 1) (hjn : ¬j < n) (hv : M.after j s = some v) :
        v = u := by
      obtain rfl : j = n := Nat.le_antisymm (Nat.le_of_lt_succ hj) (Nat.le_of_not_lt hjn)
      exact Option.some.inj (hv.symm.trans hu)
    cases hp : (M.fetch u).any p with
    | true =>
      rw [hp, if_pos rfl] at hf
      refine Or.inl ⟨n, u, ⟨Nat.lt_succ_self n, hu, hp, fun j v hnj hj => ?_⟩, hf⟩
      exact absurd hj (Nat.not_lt_of_le hnj)
    | false =>
      rw [hp, if_neg Bool.false_ne_true] at hf
      rcases ih with ⟨k, w, hk, hfu⟩ | ⟨hnone, hfu⟩
      · refine Or.inl ⟨k, w, ⟨Nat.lt_succ_of_lt hk.lt, hk.reached, hk.passes, ?_⟩, hf.trans hfu⟩
        intro j v hkj hj hv
        by_cases hjn : j < n
        · exact hk.later j v hkj hjn hv
        · rw [hlast hj hjn hv, hp]
      · refine Or.inr ⟨fun j v hj hv => ?_, hf.trans hfu⟩
        by_cases hjn : j < n
        · exact hnone j v hjn hv
        · rw [hlast hj hjn hv, hp]

/-- There is one last step at most. -/
theorem LastStep.unique {p : ι → Bool} {s : σ} {n k k' : ℕ} {u u' : σ} (h : M.LastStep p s n k u)
    (h' : M.LastStep p s n k' u') : k = k' ∧ u = u' := by
  have hle {k k' : ℕ} {u u' : σ} (h : M.LastStep p s n k u) (h' : M.LastStep p s n k' u') :
      k' ≤ k := by
    by_contra hlt
    have hfalse := h.later k' u' (Nat.lt_of_not_le hlt) h'.lt h'.reached
    rw [h'.passes] at hfalse
    cases hfalse
  obtain rfl := Nat.le_antisymm (hle h' h) (hle h h')
  exact ⟨rfl, Option.some.inj (h.reached.symm.trans h'.reached)⟩

end Memory

/-! ## Two loops side by side -/

/-- **A map of states that commutes with fetching and executing commutes with the run.** -/
theorem run_map {σ' : Type*} {M' : Interp σ' ι} {φ : σ → σ'}
    (hfetch : ∀ s, M'.fetch (φ s) = M.fetch s) (hhalts : M'.halts = M.halts)
    (hexec : ∀ s i, M'.exec (φ s) i = (M.exec s i).map φ) (n : ℕ) (s : σ) :
    M'.run n (φ s) = (M.run n s).map φ := by
  induction n generalizing s with
  | zero => rfl
  | succ n ih =>
    rw [run, run, hfetch, hhalts]
    cases M.fetch s with
    | none => rfl
    | some i =>
      dsimp only
      cases hi : M.halts i with
      | true => rfl
      | false =>
        simp only [hexec, Bool.false_eq_true, if_false]
        cases M.exec s i with
        | none => rfl
        | some s' => exact ih s'

/-- **The simulation rule**: a loop whose steps lead from related states to related states, for a
number of steps, takes a related run. -/
theorem after_sim {σ' ι' : Type*} {M' : Interp σ' ι'} {R : ℕ → σ → σ' → Prop} {s : σ} {s' : σ'}
    {n : ℕ} (h₀ : R 0 s s')
    (hstep : ∀ {k : ℕ} {u v : σ} {u' : σ'}, k < n → M.after k s = some u → M.next u = some v →
      M'.after k s' = some u' → R k u u' → ∃ v', M'.next u' = some v' ∧ R (k + 1) v v')
    {k : ℕ} (hk : k ≤ n) {t : σ} (ht : M.after k s = some t) :
    ∃ t', M'.after k s' = some t' ∧ R k t t' := by
  refine after_invariant (I := fun k t => k ≤ n → ∃ t', M'.after k s' = some t' ∧ R k t t')
    (fun _ => ⟨s', rfl, h₀⟩) ?_ ht hk
  intro k u v hu hnext ih hk
  obtain ⟨u', hu', hR⟩ := ih (Nat.le_of_succ_le hk)
  obtain ⟨v', hv', hR'⟩ := hstep hk hu hnext hu' hR
  exact ⟨v', by rw [after_succ_eq, hu']; exact hv', hR'⟩

/-- Two loops that agree on each step one of them takes agree on its whole run. -/
theorem after_congr {M' : Interp σ ι} {s : σ} :
    ∀ {n : ℕ}, (∀ k < n, ∀ u, M.after k s = some u → M'.next u = M.next u) →
      ∀ k ≤ n, M'.after k s = M.after k s
  | _, _, 0, _ => rfl
  | n, hstep, k + 1, hk => by
      have hpre := after_congr hstep k (Nat.le_of_succ_le hk)
      rw [after_succ_eq, after_succ_eq, hpre]
      cases hu : M.after k s with
      | none => rfl
      | some u => exact hstep k hk u hu

/-- Two loops that halt alike and agree on each step one of them takes give the same result. -/
theorem run_congr {M' : Interp σ ι} {s : σ} {n : ℕ} (hhalt : ∀ u, M'.Halted u ↔ M.Halted u)
    (hstep : ∀ k < n, ∀ u, M.after k s = some u → M'.next u = M.next u) :
    M'.run n s = M.run n s := by
  have hafter := after_congr hstep
  apply Option.ext
  intro t
  rw [run_eq_some_iff, run_eq_some_iff]
  constructor
  · rintro ⟨k, hk, ht, hhalted⟩
    exact ⟨k, hk, (hafter k (Nat.le_of_lt hk)).symm.trans ht, (hhalt t).mp hhalted⟩
  · rintro ⟨k, hk, ht, hhalted⟩
    exact ⟨k, hk, (hafter k (Nat.le_of_lt hk)).trans ht, (hhalt t).mpr hhalted⟩

end Interp
