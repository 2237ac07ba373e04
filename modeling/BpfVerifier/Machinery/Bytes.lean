import Mathlib.Algebra.Ring.Int.Defs
import Mathlib.Algebra.Ring.Nat
import Mathlib.Tactic.Common

/-!
# Machinery/Bytes — little-endian bytes written one after another

A memory maps integer addresses to bytes, `none` where nothing was written.  `ofWrites` is the
memory a list of writes leaves, the latest first, and `Holds` says which word the bytes at an
address spell.
-/

namespace Bytes

variable {w : ℕ}

/-- Byte `i` of a word, the lowest first. -/
def byte (v : BitVec w) (i : ℕ) : BitVec 8 := (v >>> (8 * i)).setWidth 8

abbrev Memory := ℤ → Option (BitVec 8)

/-- `k` is one of the `n` addresses from `o` on. -/
def Covers (o : ℤ) (n : ℕ) (k : ℤ) : Prop := o ≤ k ∧ k < o + n

instance (o : ℤ) (n : ℕ) (k : ℤ) : Decidable (Covers o n k) :=
  inferInstanceAs (Decidable (_ ∧ _))

/-- Two ranges of addresses meet. -/
def Meet (o : ℤ) (n : ℕ) (o' : ℤ) (n' : ℕ) : Prop := o < o' + n' ∧ o' < o + n

instance (o : ℤ) (n : ℕ) (o' : ℤ) (n' : ℕ) : Decidable (Meet o n o' n') :=
  inferInstanceAs (Decidable (_ ∧ _))

/-- The low bytes of a word, written from an address on. -/
structure Write (w : ℕ) where
  start : ℤ
  size : ℕ
  value : BitVec w

/-- The byte a write leaves at an address, if it covers it. -/
def Write.put (a : Write w) (k : ℤ) : Option (BitVec 8) :=
  if Covers a.start a.size k then some (byte a.value (k - a.start).toNat) else none

/-- The memory that a list of writes, the latest first, leaves of an unwritten one. -/
def ofWrites : List (Write w) → Memory
  | [], _ => none
  | a :: earlier, k => (a.put k).or (ofWrites earlier k)

/-- `v` is the little-endian value of the `n` bytes from `o` on. -/
def Holds (m : Memory) (o : ℤ) (n : ℕ) (v : BitVec w) : Prop :=
  v.toNat < 2 ^ (8 * n) ∧ ∀ i < n, m (o + i) = some (byte v i)

/-! ## Ranges -/

theorem covers_add {o : ℤ} {n i : ℕ} (hi : i < n) : Covers o n (o + i) := by
  unfold Covers
  omega

/-- Ranges that do not meet share no address. -/
theorem not_covers_of_not_meet {o o' k : ℤ} {n n' : ℕ} (h : ¬Meet o n o' n')
    (hk : Covers o' n' k) : ¬Covers o n k := by
  unfold Meet at h
  unfold Covers at *
  omega

/-- Ranges that are not empty meet themselves. -/
theorem meet_self (o : ℤ) {n : ℕ} (hn : 0 < n) : Meet o n o n := by
  unfold Meet
  omega

/-! ## Writes -/

theorem put_add {a : Write w} {i : ℕ} (hi : i < a.size) :
    a.put (a.start + i) = some (byte a.value i) := by
  have hsub : (a.start + i - a.start).toNat = i := by omega
  rw [Write.put, if_pos (covers_add hi), hsub]

theorem ofWrites_append (later earlier : List (Write w)) (k : ℤ) :
    ofWrites (later ++ earlier) k = (ofWrites later k).or (ofWrites earlier k) := by
  induction later with
  | nil => simp [ofWrites]
  | cons a later ih => simp [ofWrites, ih, Option.or_assoc]

/-- Writes that do not meet a range leave it alone. -/
theorem ofWrites_eq_none {later : List (Write w)} {o k : ℤ} {n : ℕ}
    (h : ∀ a ∈ later, ¬Meet a.start a.size o n) (hk : Covers o n k) : ofWrites later k = none := by
  induction later with
  | nil => rfl
  | cons a later ih =>
    have hput : a.put k = none := if_neg (not_covers_of_not_meet (h a (by simp)) hk)
    rw [ofWrites, hput, Option.none_or]
    exact ih fun b hb => h b (List.mem_cons_of_mem a hb)

/-- **A word written is held as long as the later writes leave its bytes as they were.** -/
theorem holds_append_cons_iff {later earlier : List (Write w)} {a : Write w}
    (ha : a.value.toNat < 2 ^ (8 * a.size)) :
    Holds (ofWrites (later ++ a :: earlier)) a.start a.size a.value ↔
      ∀ i < a.size, ∀ b, ofWrites later (a.start + i) = some b → b = byte a.value i := by
  have hbyte (i : ℕ) (hi : i < a.size) : ofWrites (later ++ a :: earlier) (a.start + i) =
      some ((ofWrites later (a.start + i)).getD (byte a.value i)) := by
    rw [ofWrites_append, ofWrites, put_add hi]
    cases ofWrites later (a.start + i) <;> rfl
  constructor
  · intro h i hi b hb
    have hi' := (hbyte i hi).symm.trans (h.2 i hi)
    rw [hb] at hi'
    exact Option.some.inj hi'
  · intro h
    refine ⟨ha, fun i hi => ?_⟩
    rw [hbyte i hi]
    cases hb : ofWrites later (a.start + i) with
    | none => rfl
    | some b => rw [Option.getD_some, h i hi b hb]

end Bytes
