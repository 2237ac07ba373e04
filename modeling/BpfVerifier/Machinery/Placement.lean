import Mathlib.Algebra.BigOperators.Group.List.Basic
import Mathlib.Algebra.Ring.Int.Defs
import Mathlib.Algebra.Ring.Nat
import Mathlib.Tactic.Common

/-!
# Machinery/Placement — items laid out one after another

Items of given sizes stand one after another from position 0 on, and `start` is where each begins.
Where no size is zero the starts increase (`start_lt_start`), and every position below the total
belongs to an item (`exists_item`).  `foldl_zipIdx` is the rule for a pass over the items with their
indices.
-/

namespace Placement

variable {α : Type*} (size : α → ℕ)

/-- Where an item starts: after the sizes of the items before it. -/
def start (l : List α) (i : ℕ) : ℕ := ((l.take i).map size).sum

/-- Where the last item ends. -/
def total (l : List α) : ℕ := (l.map size).sum

variable {size} {l : List α} {i j : ℕ}

@[simp] theorem start_zero (l : List α) : start size l 0 = 0 := by simp [start]

theorem start_length (l : List α) : start size l l.length = total size l := by
  rw [start, List.take_length, total]

/-- An item takes its size. -/
theorem start_succ (hi : i < l.length) : start size l (i + 1) = start size l i + size l[i] := by
  rw [start, List.take_succ_eq_append_getElem hi, List.map_append, List.sum_append]
  simp [start]

/-- **The starts increase.** -/
theorem start_lt_start (hpos : ∀ x ∈ l, 0 < size x) (hij : i < j) (hj : j ≤ l.length) :
    start size l i < start size l j := by
  induction hij with
  | refl =>
    rw [start_succ hj]
    exact Nat.lt_add_of_pos_right (hpos _ (List.getElem_mem hj))
  | @step j hij ih =>
    rw [start_succ hj]
    exact Nat.lt_of_lt_of_le (ih (Nat.le_of_succ_le hj)) (Nat.le_add_right _ _)

theorem start_le_start (hpos : ∀ x ∈ l, 0 < size x) (hij : i ≤ j) (hj : j ≤ l.length) :
    start size l i ≤ start size l j := by
  rcases Nat.eq_or_lt_of_le hij with rfl | hlt
  · exact le_rfl
  · exact Nat.le_of_lt (start_lt_start hpos hlt hj)

/-- No item starts strictly inside another. -/
theorem not_start_inside (hpos : ∀ x ∈ l, 0 < size x) (hi : i < l.length) (hj : j ≤ l.length) :
    ¬(start size l i < start size l j ∧ start size l j < start size l i + size l[i]) := by
  rintro ⟨hafter, hbefore⟩
  rcases Nat.lt_or_ge i j with hij | hji
  · have hend := start_le_start hpos (Nat.succ_le_of_lt hij) hj
    rw [start_succ hi] at hend
    omega
  · have hstart := start_le_start hpos hji (Nat.le_of_lt hi)
    omega

/-- **Every position below the total belongs to an item.** -/
theorem exists_item {pos : ℕ} (h : pos < total size l) :
    ∃ (i : ℕ) (hi : i < l.length), start size l i ≤ pos ∧ pos < start size l i + size l[i] := by
  suffices hprefix : ∀ n ≤ l.length, pos < start size l n →
      ∃ (i : ℕ) (hi : i < l.length), start size l i ≤ pos ∧ pos < start size l i + size l[i] from
    hprefix l.length le_rfl (by rwa [start_length])
  intro n
  induction n with
  | zero =>
    intro _ hlt
    rw [start_zero] at hlt
    omega
  | succ n ih =>
    intro hn hlt
    rw [start_succ hn] at hlt
    rcases Nat.lt_or_ge pos (start size l n) with hbefore | hfrom
    · exact ih (Nat.le_of_succ_le hn) hbefore
    · exact ⟨n, hn, hfrom, hlt⟩

/-- **What one item keeps holds after a pass over all items.** -/
theorem foldl_zipIdx {β : Type*} {f : β → α × ℕ → β} {P : ℕ → β → Prop} {init : β}
    (h₀ : P 0 init)
    (hstep : ∀ (n : ℕ) (hn : n < l.length) (acc : β), P n acc → P (n + 1) (f acc (l[n], n))) :
    P l.length (l.zipIdx.foldl f init) := by
  suffices hfrom : ∀ (k n : ℕ) (acc : β), n + k = l.length → P n acc →
      P l.length (((l.drop n).zipIdx n).foldl f acc) from
    hfrom l.length 0 init (Nat.zero_add _) h₀
  intro k
  induction k with
  | zero =>
    intro n acc hn h
    obtain rfl : n = l.length := hn
    simpa using h
  | succ k ih =>
    intro n acc hn h
    have hlt : n < l.length := by omega
    rw [List.drop_eq_getElem_cons hlt]
    exact ih (n + 1) _ (by omega) (hstep n hlt acc h)

end Placement
