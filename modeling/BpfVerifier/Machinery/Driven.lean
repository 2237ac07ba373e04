import BpfVerifier.Machinery.Fuel

/-!
# Machinery/Driven — a machine that asks the outside world

A driven machine takes one answer of the outside world at each step.  An interpreter is realised by
one when each of its steps is a step of the machine, for some answer (`exists_drive`) or for every
answer (`forall_drive`); then so are its runs.
-/

variable {σ ι τ ω : Type*} {step : ω → τ → Option τ}

/-- The state after `n` steps, each with its own answer. -/
def drive (step : ω → τ → Option τ) (env : ℕ → ω) (t : τ) : ℕ → Option τ
  | 0 => some t
  | n + 1 => (drive step env t n).bind (step (env n))

/-- A run depends on the answers to its own steps. -/
theorem drive_congr {env env' : ℕ → ω} {t : τ} {n : ℕ} (h : ∀ k < n, env k = env' k) :
    drive step env t n = drive step env' t n := by
  induction n with
  | zero => rfl
  | succ n ih =>
    rw [drive, drive, ih fun k hk => h k (Nat.lt_succ_of_lt hk), h n (Nat.lt_succ_self n)]

namespace Interp

variable {M : Interp σ ι} {R : σ → τ → Prop} {Good : σ → ι → Prop} {s s' : σ} {t : τ} {n : ℕ}

/-- Every instruction that the first `n` steps execute meets the condition. -/
def StepsMeet (M : Interp σ ι) (Good : σ → ι → Prop) (s : σ) (n : ℕ) : Prop :=
  ∀ k < n, ∀ u i, M.after k s = some u → M.fetch u = some i → Good u i

/-- Instruction for instruction, to the end of the run. -/
theorem after_induction {P : ℕ → σ → Prop} (hgood : M.StepsMeet Good s n)
    (h : M.after n s = some s') (h₀ : P 0 s)
    (hstep : ∀ k u u' i, M.fetch u = some i → M.halts i = false → Good u i →
      M.exec u i = some u' → P k u → P (k + 1) u') : P n s' := by
  refine after_invariant (I := fun k u => k ≤ n → P k u) (fun _ => h₀) ?_ h (Nat.le_refl n)
  intro k u u' hu hnext ih hk
  obtain ⟨i, hfetch, hhalt, hexec⟩ := next_eq_some_iff.mp hnext
  exact hstep k u u' i hfetch hhalt (hgood k hk u i hu hfetch) hexec (ih (Nat.le_of_succ_le hk))

/-- **Runs are realised when steps are**, in a world that answers each of them. -/
theorem exists_drive [Nonempty ω]
    (hstep : ∀ u u' i t, M.fetch u = some i → M.halts i = false → Good u i →
      M.exec u i = some u' → R u t → ∃ w t', step w t = some t' ∧ R u' t')
    (hgood : M.StepsMeet Good s n) (hR : R s t) (h : M.after n s = some s') :
    ∃ env t', drive step env t n = some t' ∧ R s' t' := by
  obtain ⟨w₀⟩ := ‹Nonempty ω›
  refine after_induction (P := fun k u => ∃ env t', drive step env t k = some t' ∧ R u t') hgood h
    ⟨fun _ => w₀, t, rfl, hR⟩ ?_
  rintro k u u' i hfetch hhalt hi hexec ⟨env, t', hdrive, hR'⟩
  obtain ⟨w, t'', hw, hR''⟩ := hstep u u' i t' hfetch hhalt hi hexec hR'
  -- the world answers `w` from here on
  refine ⟨fun j => if j < k then env j else w, t'', ?_, hR''⟩
  have hsame : drive step (fun j => if j < k then env j else w) t k = some t' := by
    rw [← hdrive]
    exact drive_congr fun j hj => if_pos hj
  rw [drive, hsame, Option.bind_some, if_neg (Nat.lt_irrefl k), hw]

/-- **Runs are realised in every world** when steps are. -/
theorem forall_drive
    (hstep : ∀ u u' i t, M.fetch u = some i → M.halts i = false → Good u i →
      M.exec u i = some u' → R u t → ∃ t', (∀ w, step w t = some t') ∧ R u' t')
    (hgood : M.StepsMeet Good s n) (hR : R s t) (h : M.after n s = some s') :
    ∃ t', (∀ env, drive step env t n = some t') ∧ R s' t' := by
  refine after_induction (P := fun k u => ∃ t', (∀ env, drive step env t k = some t') ∧ R u t')
    hgood h ⟨t, fun _ => rfl, hR⟩ ?_
  rintro k u u' i hfetch hhalt hi hexec ⟨t', hdrive, hR'⟩
  obtain ⟨t'', hw, hR''⟩ := hstep u u' i t' hfetch hhalt hi hexec hR'
  refine ⟨t'', fun env => ?_, hR''⟩
  rw [drive, hdrive, Option.bind_some, hw]

end Interp
