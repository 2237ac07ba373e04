import Mathlib.Algebra.Ring.Int.Defs
import Mathlib.Algebra.Ring.Nat
import Mathlib.Data.List.Basic
import Mathlib.Tactic.Common

/-!
# Machinery/Checked — arithmetic and slices that can panic

A computation is an `Option`: `none` is a panic, by an overflow of a 64-bit `usize` or by a slice
out of range.  `add_eq`, `mul_eq`, `slice_eq` and `u32At_eq` say what is read where nothing panics.
-/

namespace Checked

variable {α : Type*}

/-- A `usize` of 64 bits. -/
def usize (n : ℕ) : Option ℕ := if n < 2 ^ 64 then some n else none

def add (a b : ℕ) : Option ℕ := usize (a + b)

def mul (a b : ℕ) : Option ℕ := usize (a * b)

/-- `data[lo..hi]`. -/
def slice (data : List α) (lo hi : ℕ) : Option (List α) :=
  if lo ≤ hi ∧ hi ≤ data.length then some ((data.drop lo).take (hi - lo)) else none

/-- `u32::from_le_bytes(bytes.try_into().unwrap())`. -/
def fromLeBytes : List (BitVec 8) → Option (BitVec 32)
  | [b₀, b₁, b₂, b₃] => some (b₃ ++ b₂ ++ b₁ ++ b₀)
  | _ => none

/-- The little-endian word `data[lo..hi]`. -/
def u32At (data : List (BitVec 8)) (lo hi : ℕ) : Option (BitVec 32) :=
  (slice data lo hi).bind fromLeBytes

/-- The little-endian word at a position, zeros past the end. -/
def wordAt (data : List (BitVec 8)) (pos : ℕ) : BitVec 32 :=
  data.getD (pos + 3) 0 ++ data.getD (pos + 2) 0 ++ data.getD (pos + 1) 0 ++ data.getD pos 0

/-! ## Where nothing panics -/

theorem usize_eq {n : ℕ} (h : n < 2 ^ 64) : usize n = some n := if_pos h

theorem add_eq {a b : ℕ} (h : a + b < 2 ^ 64) : add a b = some (a + b) := usize_eq h

theorem mul_eq {a b : ℕ} (h : a * b < 2 ^ 64) : mul a b = some (a * b) := usize_eq h

theorem eq_of_add {a b n : ℕ} (h : add a b = some n) : n = a + b := by
  unfold add usize at h
  split at h
  · exact (Option.some.inj h).symm
  · cases h

theorem slice_eq {data : List α} {lo hi : ℕ} (hlo : lo ≤ hi) (hhi : hi ≤ data.length) :
    slice data lo hi = some ((data.drop lo).take (hi - lo)) := if_pos ⟨hlo, hhi⟩

/-- Two 32-bit numbers multiply without overflow, and leave room for a third. -/
theorem mul_lt_of_lt {a b : ℕ} (ha : a < 2 ^ 32) (hb : b < 2 ^ 32) :
    a * b < 2 ^ 64 - 2 ^ 33 + 2 := by
  have h : a * b ≤ (2 ^ 32 - 1) * (2 ^ 32 - 1) := Nat.mul_le_mul (by omega) (by omega)
  omega

/-- **A word inside the data is read.** -/
theorem u32At_eq {data : List (BitVec 8)} {lo : ℕ} (h : lo + 4 ≤ data.length) :
    u32At data lo (lo + 4) = some (wordAt data lo) := by
  have hget (i : ℕ) (hi : i < 4) : (data.drop lo)[i]? = some (data.getD (lo + i) 0) := by
    rw [List.getElem?_drop, List.getD_eq_getElem?_getD,
      List.getElem?_eq_getElem (by omega : lo + i < data.length), Option.getD_some]
  have hbytes : (data.drop lo).take 4 =
      [data.getD lo 0, data.getD (lo + 1) 0, data.getD (lo + 2) 0, data.getD (lo + 3) 0] := by
    apply List.ext_getElem?
    intro i
    rw [List.getElem?_take]
    match i with
    | 0 => simpa using hget 0 (by omega)
    | 1 => simpa using hget 1 (by omega)
    | 2 => simpa using hget 2 (by omega)
    | 3 => simpa using hget 3 (by omega)
    | i + 4 => rw [if_neg (by omega), List.getElem?_eq_none (by simp)]
  rw [u32At, slice_eq (by omega) h, Option.bind_some, Nat.add_sub_cancel_left, hbytes]
  rfl

end Checked
