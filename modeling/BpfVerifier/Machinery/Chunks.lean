import Mathlib.Algebra.BigOperators.Group.List.Basic
import Mathlib.Algebra.Ring.Int.Defs
import Mathlib.Algebra.Ring.Nat
import BpfVerifier.Machinery.Fuel

/-!
# Machinery/Chunks — a run in pieces

`chunk n` takes up to `n` steps and hands on the state it stopped in, where `run` gives nothing
before a halting instruction.  Pieces compose (`chunk_add`), so a chain of them is one piece as long
as their sum (`chunks_eq`), and a run is a piece that ends at a halting instruction
(`run_succ_eq_some_iff`).
-/

namespace Interp

variable {σ ι : Type*} (M : Interp σ ι)

/-- Take up to `n` steps, fewer at a halting instruction; `none` when nothing is fetched or an
instruction fails. -/
def chunk : ℕ → σ → Option σ
  | 0, s => some s
  | n + 1, s =>
    match M.fetch s with
    | none => none
    | some i =>
      if M.halts i then some s
      else match M.exec s i with
        | none => none
        | some s' => chunk n s'

/-- One piece after the other. -/
def chunks (sizes : List ℕ) (s : σ) : Option σ := sizes.foldlM (fun s n => M.chunk n s) s

variable {M}

theorem chunk_succ_of_next {s s' : σ} (h : M.next s = some s') (n : ℕ) :
    M.chunk (n + 1) s = M.chunk n s' := by
  obtain ⟨i, hfetch, hi, hexec⟩ := next_eq_some_iff.mp h
  simp [chunk, hfetch, hi, hexec]

/-- A halted state is handed on as it is. -/
theorem chunk_of_halted {s : σ} (h : M.Halted s) (n : ℕ) : M.chunk n s = some s := by
  cases n with
  | zero => rfl
  | succ n =>
    obtain ⟨i, hfetch, hi⟩ := h
    simp [chunk, hfetch, hi]

theorem chunk_succ_of_stuck {s : σ} (h : M.Stuck s) (n : ℕ) : M.chunk (n + 1) s = none := by
  obtain ⟨hhalt, hnext⟩ := h
  cases hfetch : M.fetch s with
  | none => simp [chunk, hfetch]
  | some i =>
    have hi : M.halts i = false := by
      by_contra hi
      exact hhalt ⟨i, hfetch, by simpa using hi⟩
    have hexec : M.exec s i = none := by simpa [next, hfetch, hi] using hnext
    simp [chunk, hfetch, hi, hexec]

/-- **Pieces compose.** -/
theorem chunk_add (m n : ℕ) (s : σ) : M.chunk (m + n) s = (M.chunk m s).bind (M.chunk n) := by
  induction m generalizing s with
  | zero => rw [Nat.zero_add]; rfl
  | succ m ih =>
    rw [Nat.succ_add]
    rcases halted_or_next_or_stuck (M := M) s with hhalt | ⟨s', hnext⟩ | hstuck
    · rw [chunk_of_halted hhalt, chunk_of_halted hhalt, Option.bind_some, chunk_of_halted hhalt]
    · rw [chunk_succ_of_next hnext, chunk_succ_of_next hnext, ih]
    · rw [chunk_succ_of_stuck hstuck, chunk_succ_of_stuck hstuck, Option.bind_none]

/-- **A chain of pieces is one piece, as long as their sum.** -/
theorem chunks_eq (sizes : List ℕ) (s : σ) : M.chunks sizes s = M.chunk sizes.sum s := by
  induction sizes generalizing s with
  | nil => rfl
  | cons n sizes ih =>
    rw [chunks, List.foldlM_cons, List.sum_cons, chunk_add]
    exact congrArg (M.chunk n s).bind (funext ih)

/-- **The rule of pieces**: what each piece carries on to the next holds after the last one. -/
theorem chunks_carry {A : ℕ → σ → Prop} {sizes : List ℕ}
    (hpiece : ∀ i (hi : i < sizes.length) s s', A i s → M.chunk sizes[i] s = some s' →
      A (i + 1) s')
    {s t : σ} (hs : A 0 s) (ht : M.chunks sizes s = some t) : A sizes.length t := by
  induction sizes generalizing A s with
  | nil =>
    obtain rfl := Option.some.inj ht
    exact hs
  | cons n sizes ih =>
    rw [chunks, List.foldlM_cons] at ht
    obtain ⟨u, hu, hrest⟩ := Option.bind_eq_some_iff.mp ht
    exact ih (A := fun i => A (i + 1)) (fun i hi => hpiece (i + 1) (Nat.succ_lt_succ hi))
      (hpiece 0 (Nat.zero_lt_succ _) s u hs hu) hrest

/-- **What a piece hands on**: the state after all its steps, or a halted one before. -/
theorem chunk_eq_some_iff {n : ℕ} {s t : σ} :
    M.chunk n s = some t ↔ M.after n s = some t ∨ ∃ k < n, M.after k s = some t ∧ M.Halted t := by
  induction n generalizing s with
  | zero => simp [chunk]
  | succ n ih =>
    rcases halted_or_next_or_stuck (M := M) s with hhalt | ⟨s', hnext⟩ | hstuck
    · rw [chunk_of_halted hhalt]
      constructor
      · intro h
        obtain rfl := Option.some.inj h
        exact Or.inr ⟨0, Nat.succ_pos n, rfl, hhalt⟩
      · rintro (hafter | ⟨k, -, hafter, -⟩)
        · exact absurd (after_of_halted hhalt hafter) (Nat.succ_ne_zero n)
        · obtain rfl := after_of_halted hhalt hafter
          exact hafter
    · rw [chunk_succ_of_next hnext, ih, after_succ, hnext, Option.bind_some]
      refine or_congr Iff.rfl ⟨?_, ?_⟩
      · rintro ⟨k, hk, hafter, ht⟩
        exact ⟨k + 1, Nat.succ_lt_succ hk, by rw [after_succ, hnext]; exact hafter, ht⟩
      · rintro ⟨k, hk, hafter, ht⟩
        cases k with
        | zero =>
          obtain rfl := Option.some.inj hafter
          rw [ht.next_eq_none] at hnext
          cases hnext
        | succ k =>
          rw [after_succ, hnext] at hafter
          exact ⟨k, Nat.lt_of_succ_lt_succ hk, hafter, ht⟩
    · rw [chunk_succ_of_stuck hstuck]
      refine iff_of_false (by simp) ?_
      rintro (hafter | ⟨k, -, hafter, ht⟩)
      · simp [after_succ, hstuck.2] at hafter
      · cases k with
        | zero =>
          obtain rfl := Option.some.inj hafter
          exact hstuck.1 ht
        | succ k => simp [after_succ, hstuck.2] at hafter

/-- **A run is a piece that ends at a halting instruction.** -/
theorem run_succ_eq_some_iff {n : ℕ} {s t : σ} :
    M.run (n + 1) s = some t ↔ M.chunk n s = some t ∧ M.Halted t := by
  rw [run_eq_some_iff, chunk_eq_some_iff]
  constructor
  · rintro ⟨k, hk, hafter, ht⟩
    rcases Nat.lt_succ_iff_lt_or_eq.mp hk with hlt | rfl
    · exact ⟨Or.inr ⟨k, hlt, hafter, ht⟩, ht⟩
    · exact ⟨Or.inl hafter, ht⟩
  · rintro ⟨hafter | ⟨k, hk, hafter, ht⟩, hhalt⟩
    · exact ⟨n, Nat.lt_succ_self n, hafter, hhalt⟩
    · exact ⟨k, Nat.lt_succ_of_lt hk, hafter, ht⟩

end Interp
