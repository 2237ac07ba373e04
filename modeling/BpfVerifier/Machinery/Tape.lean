import BpfVerifier.Machinery.Fuel

/-!
# Machinery/Tape — loops that read choices from a tape

A loop whose states carry a list of choices: a step takes the first one (a default when the list is
used up) or leaves the list alone, and which of the two it does depends on the rest of the state.
Two tapes give the same run exactly when they agree on the choices the run takes
(`sameStates_iff`).
-/

namespace Interp

variable {σ ι κ : Type*}

/-- **How a loop reads its tape**: where `reads` holds, a step goes on by the next choice, to
different states for different choices; elsewhere it does not look at the tape. -/
structure ReadsTape (M : Interp (σ × List κ) ι) (d : κ) (reads : σ → Bool) : Prop where
  read : ∀ {s}, reads s = true → ∃ f : κ → σ, Function.Injective f ∧
    ∀ tape, M.next (s, tape) = some (f (tape.headD d), tape.tail)
  keep : ∀ {s}, reads s = false → ∃ r : Option σ,
    ∀ tape, M.next (s, tape) = r.map fun s' => (s', tape)

/-- The choices taken in the first `n` steps. -/
def taken (M : Interp (σ × List κ) ι) (reads : σ → Bool) : ℕ → σ × List κ → ℕ
  | 0, _ => 0
  | n + 1, c =>
    (if reads c.1 then 1 else 0) +
      match M.next c with
      | some c' => taken M reads n c'
      | none => 0

/-- The states, without the tapes, are the same for the first `n` steps. -/
def SameStates (M : Interp (σ × List κ) ι) (n : ℕ) (s : σ) (tape tape' : List κ) : Prop :=
  ∀ k ≤ n, (M.after k (s, tape)).map Prod.fst = (M.after k (s, tape')).map Prod.fst

variable {M : Interp (σ × List κ) ι} {d : κ} {reads : σ → Bool} {s : σ} {tape tape' : List κ}
  {n : ℕ}

theorem sameStates_zero : M.SameStates 0 s tape tape' := by
  intro k hk
  obtain rfl := Nat.le_zero.mp hk
  rfl

/-- Where the next step does not look at the tape. -/
theorem sameStates_succ_of_keep {r : Option σ}
    (hkeep : ∀ tape, M.next (s, tape) = r.map fun s' => (s', tape)) :
    M.SameStates (n + 1) s tape tape' ↔ ∀ s', r = some s' → M.SameStates n s' tape tape' := by
  constructor
  · rintro h s' rfl k hk
    have hstep := h (k + 1) (Nat.succ_le_succ hk)
    rwa [after_succ, after_succ, hkeep, hkeep, Option.map_some, Option.map_some, Option.bind_some,
      Option.bind_some] at hstep
  · intro h k hk
    cases k with
    | zero => rfl
    | succ k =>
      rw [after_succ, after_succ, hkeep, hkeep]
      cases r with
      | none => rfl
      | some s' => exact h s' rfl k (Nat.le_of_succ_le_succ hk)

/-- Where the next step takes a choice. -/
theorem sameStates_succ_of_read {f : κ → σ} (hinj : Function.Injective f)
    (hread : ∀ tape, M.next (s, tape) = some (f (tape.headD d), tape.tail)) :
    M.SameStates (n + 1) s tape tape' ↔ tape.headD d = tape'.headD d ∧
      M.SameStates n (f (tape.headD d)) tape.tail tape'.tail := by
  constructor
  · intro h
    have hone := h 1 (by omega)
    rw [after_succ, after_succ, hread, hread, Option.bind_some, Option.bind_some, after_zero,
      after_zero, Option.map_some, Option.map_some, Option.some.injEq] at hone
    have hhead : tape.headD d = tape'.headD d := hinj hone
    refine ⟨hhead, fun k hk => ?_⟩
    have hstep := h (k + 1) (Nat.succ_le_succ hk)
    rw [after_succ, after_succ, hread, hread, Option.bind_some, Option.bind_some] at hstep
    rwa [← hhead] at hstep
  · rintro ⟨hhead, h⟩ k hk
    cases k with
    | zero => rfl
    | succ k =>
      rw [after_succ, after_succ, hread, hread, Option.bind_some, Option.bind_some, ← hhead]
      exact h k (Nat.le_of_succ_le_succ hk)

theorem getD_succ_eq_tail (tape : List κ) (i : ℕ) (d : κ) :
    tape.getD (i + 1) d = tape.tail.getD i d := by
  cases tape <;> simp

theorem getD_zero_eq_headD (tape : List κ) (d : κ) : tape.getD 0 d = tape.headD d := by
  cases tape <;> rfl

/-- **Two tapes give the same states exactly when they agree on the choices taken.** -/
theorem sameStates_iff (hM : M.ReadsTape d reads) :
    M.SameStates n s tape tape' ↔
      ∀ i < M.taken reads n (s, tape), tape.getD i d = tape'.getD i d := by
  induction n generalizing s tape tape' with
  | zero => exact iff_of_true sameStates_zero fun i hi => absurd hi (Nat.not_lt_zero i)
  | succ n ih =>
    cases hreads : reads s with
    | false =>
      obtain ⟨r, hkeep⟩ := hM.keep hreads
      rw [sameStates_succ_of_keep hkeep]
      simp only [taken, hreads, Bool.false_eq_true, if_false, hkeep, Nat.zero_add]
      cases r with
      | none => simp
      | some s' => simp [ih]
    | true =>
      obtain ⟨f, hinj, hread⟩ := hM.read hreads
      rw [sameStates_succ_of_read hinj hread, ih]
      simp only [taken, hreads, if_true, hread]
      constructor
      · rintro ⟨hhead, htail⟩ i hi
        cases i with
        | zero => rwa [getD_zero_eq_headD, getD_zero_eq_headD]
        | succ i =>
          rw [getD_succ_eq_tail, getD_succ_eq_tail]
          exact htail i (by omega)
      · intro h
        have hhead := h 0 (by omega)
        rw [getD_zero_eq_headD, getD_zero_eq_headD] at hhead
        refine ⟨hhead, fun i hi => ?_⟩
        rw [← getD_succ_eq_tail, ← getD_succ_eq_tail]
        exact h (i + 1) (by omega)

/-- **Past the end of a run nothing differs.** -/
theorem sameStates_of_halted {k : ℕ} {c : σ × List κ} (hk : k ≤ n)
    (hafter : M.after k (s, tape) = some c)
    (hhalted : ∀ tape, M.Halted (c.1, tape)) (h : M.SameStates n s tape tape') (m : ℕ) :
    M.SameStates m s tape tape' := by
  have hend {l : List κ} {c' : σ × List κ} (hl : M.after k (s, l) = some c') (hc : c'.1 = c.1)
      {j : ℕ} (hj : k < j) : M.after j (s, l) = none := by
    obtain ⟨i, rfl⟩ := Nat.exists_eq_add_of_lt hj
    have hnext : M.next c' = none := by
      have hhalt := hhalted c'.2
      rw [← hc] at hhalt
      exact hhalt.next_eq_none
    rw [Nat.add_assoc, after_add, hl, Option.bind_some, after_succ, hnext, Option.bind_none]
  intro j hj
  rcases Nat.lt_or_ge n j with hlt | hge
  · have hsame := h k hk
    rw [hafter, Option.map_some] at hsame
    obtain ⟨c', hc', hfst⟩ := Option.map_eq_some_iff.mp hsame.symm
    rw [hend hafter rfl (by omega), hend hc' hfst (by omega)]
  · exact h j hge

end Interp
