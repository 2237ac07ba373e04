import BpfVerifier.Machinery.Fuel

/-!
# Machinery/History — what a run has done, as a list

`visited n` lists the states a loop comes to in its first `n` steps, in order.  A part of the state
that each step only adds to is a log: after a run it is what the visited states added, the latest
first, on top of what it was (`log_of_after`).
-/

namespace Interp

variable {σ ι : Type*} (M : Interp σ ι)

/-- The states met before each of up to `n` steps, the first one first. -/
def visited : ℕ → σ → List σ
  | 0, _ => []
  | n + 1, s => s :: ((M.next s).map (visited n)).getD []

variable {M}

@[simp] theorem visited_zero (s : σ) : M.visited 0 s = [] := rfl

theorem visited_succ_of_next {s s' : σ} (h : M.next s = some s') (n : ℕ) :
    M.visited (n + 1) s = s :: M.visited n s' := by
  rw [visited, h]
  rfl

/-- Nothing is visited after a state that takes no step. -/
theorem visited_of_next_eq_none {s : σ} (h : M.next s = none) (n : ℕ) :
    M.visited (n + 1) s = [s] := by
  rw [visited, h]
  rfl

/-- A state that takes no step, reached with steps to spare, is the last one visited. -/
theorem visited_of_after {k n : ℕ} (hk : k < n) {s t : σ} (h : M.after k s = some t)
    (ht : M.next t = none) : M.visited n s = M.visited k s ++ [t] := by
  induction k generalizing n s with
  | zero =>
    obtain rfl := Option.some.inj h
    obtain ⟨n, rfl⟩ := Nat.exists_eq_succ_of_ne_zero (Nat.ne_of_gt hk)
    exact visited_of_next_eq_none ht n
  | succ k ih =>
    obtain ⟨n, rfl⟩ := Nat.exists_eq_succ_of_ne_zero (Nat.ne_of_gt (Nat.zero_lt_of_lt hk))
    obtain ⟨s', hs', hafter⟩ := Option.bind_eq_some_iff.mp h
    rw [visited_succ_of_next hs', visited_succ_of_next hs', List.cons_append,
      ih (Nat.lt_of_succ_lt_succ hk) hafter]

/-! ## Logs -/

section Logs

variable {ω : Type*} {log : σ → List ω} {entry : σ → Option ω}

/-- **The log rule**: a part of the state that each step adds an entry to, or leaves, holds after a
run the entries of the states it came to, the latest first. -/
theorem log_of_after
    (hstep : ∀ {u u' : σ}, M.next u = some u' → log u' = (entry u).toList ++ log u) {n : ℕ}
    {s t : σ} (h : M.after n s = some t) :
    log t = ((M.visited n s).filterMap entry).reverse ++ log s := by
  induction n generalizing s with
  | zero =>
    obtain rfl := Option.some.inj h
    rfl
  | succ n ih =>
    obtain ⟨s', hs', hafter⟩ := Option.bind_eq_some_iff.mp h
    rw [ih hafter, hstep hs', visited_succ_of_next hs', List.filterMap_cons]
    cases entry s <;> simp

/-- The log at the end of a run, whose last state adds nothing. -/
theorem log_of_run
    (hstep : ∀ {u u' : σ}, M.next u = some u' → log u' = (entry u).toList ++ log u)
    (hhalt : ∀ {u : σ}, M.Halted u → entry u = none) {n : ℕ} {s t : σ}
    (h : M.run n s = some t) :
    log t = ((M.visited n s).filterMap entry).reverse ++ log s := by
  obtain ⟨k, hk, hafter, ht⟩ := run_eq_some_iff.mp h
  rw [visited_of_after hk hafter ht.next_eq_none, List.filterMap_append, List.filterMap_cons,
    hhalt ht, List.filterMap_nil, List.append_nil]
  exact log_of_after hstep hafter

end Logs

end Interp
