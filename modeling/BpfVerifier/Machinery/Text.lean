import Mathlib.Algebra.BigOperators.Group.List.Basic
import Mathlib.Algebra.Ring.Int.Defs
import Mathlib.Algebra.Ring.Nat
import Mathlib.Tactic.Common

/-!
# Machinery/Text — strings cut at byte positions

A text is its characters; positions count the bytes of their UTF-8 encoding.  `cut` takes a text
apart at a position and fails inside a character and past the end (`cut_eq_some`); slices are parts
of cuts.  `splitLines` keeps the line endings and `lines` drops them.
-/

/-- A string, as its characters. -/
abbrev Text := List Char

namespace Text

/-- The length in bytes. -/
def len (s : Text) : ℕ := (s.map Char.utf8Size).sum

def bytes (s : Text) : List UInt8 := s.flatMap String.utf8EncodeChar

/-- The two parts at a byte position, which is to be a boundary of characters. -/
def cut : Text → ℕ → Option (Text × Text)
  | s, 0 => some ([], s)
  | [], _ + 1 => none
  | c :: s, i + 1 =>
    if c.utf8Size ≤ i + 1 then
      (cut s (i + 1 - c.utf8Size)).map fun parts => (c :: parts.1, parts.2)
    else none

/-- `&s[i..]`. -/
def sliceFrom (s : Text) (i : ℕ) : Option Text := (s.cut i).map Prod.snd

/-- `&s[..i]`. -/
def sliceTo (s : Text) (i : ℕ) : Option Text := (s.cut i).map Prod.fst

/-- `&s[lo..hi]`. -/
def slice (s : Text) (lo hi : ℕ) : Option Text := (s.sliceTo hi).bind fun t => sliceFrom t lo

/-- A position at which the text can be cut. -/
def IsBoundary (s : Text) (i : ℕ) : Prop := (s.cut i).isSome

instance (s : Text) (i : ℕ) : Decidable (s.IsBoundary i) := inferInstanceAs (Decidable (_ = true))

/-! ## Lines -/

/-- The lines with their endings; a last one may have none. -/
def splitLines : Text → List Text
  | [] => []
  | c :: s =>
    if c = '\n' then [c] :: splitLines s
    else match splitLines s with
      | [] => [[c]]
      | line :: rest => (c :: line) :: rest

/-- Drop a final carriage return. -/
def dropCr (line : Text) : Text := if line.getLast? = some '\r' then line.dropLast else line

/-- Drop a line feed, and a carriage return before it. -/
def stripEnding (line : Text) : Text :=
  if line.getLast? = some '\n' then dropCr line.dropLast else line

/-- `str::lines`. -/
def lines (s : Text) : List Text := s.splitLines.map stripEnding

/-- A line ends in `\r\n`. -/
def EndsCrlf (line : Text) : Prop := ['\r', '\n'] <:+ line

instance (line : Text) : Decidable (EndsCrlf line) := inferInstanceAs (Decidable (_ <:+ _))

/-! ## Lengths and cuts -/

@[simp] theorem len_nil : len [] = 0 := rfl

@[simp] theorem len_cons (c : Char) (s : Text) : len (c :: s) = c.utf8Size + len s := by
  simp [len]

@[simp] theorem len_append (s t : Text) : len (s ++ t) = len s + len t := by
  simp [len]

@[simp] theorem length_bytes (s : Text) : s.bytes.length = len s := by
  simp [bytes, len, List.length_flatMap]

theorem len_flatten (ts : List Text) : len ts.flatten = (ts.map len).sum := by
  induction ts with
  | nil => rfl
  | cons t ts ih => simp [ih]

theorem cut_zero (s : Text) : s.cut 0 = some ([], s) := by
  cases s <;> rfl

/-- A cut after the first character is a cut of the rest. -/
theorem cut_cons (c : Char) (s : Text) (i : ℕ) :
    cut (c :: s) (c.utf8Size + i) = (cut s i).map fun parts => (c :: parts.1, parts.2) := by
  obtain ⟨size, hsize⟩ := Nat.exists_eq_add_of_le' (Char.utf8Size_pos c)
  have hcut : c.utf8Size + i = (size + i) + 1 := by omega
  rw [hcut, cut, if_pos (by omega), ← hcut, Nat.add_sub_cancel_left]

theorem cut_append (a b : Text) : (a ++ b).cut (len a) = some (a, b) := by
  induction a with
  | nil => exact cut_zero b
  | cons c a ih => rw [List.cons_append, len_cons, cut_cons, ih, Option.map_some]

theorem eq_of_cut {s a b : Text} {i : ℕ} (h : s.cut i = some (a, b)) : s = a ++ b ∧ len a = i := by
  fun_induction cut s i generalizing a b with
  | case1 s =>
    obtain ⟨rfl, rfl⟩ := Prod.mk.inj (Option.some.inj h)
    exact ⟨rfl, rfl⟩
  | case2 => cases h
  | case3 i c s hle ih =>
    obtain ⟨⟨a', b'⟩, hcut, heq⟩ := Option.map_eq_some_iff.mp h
    obtain ⟨rfl, rfl⟩ := Prod.mk.inj heq
    obtain ⟨rfl, hlen⟩ := ih hcut
    refine ⟨rfl, ?_⟩
    rw [len_cons, hlen]
    omega
  | case4 => cases h

/-- **Where a text can be cut.** -/
theorem cut_eq_some {s a b : Text} {i : ℕ} : s.cut i = some (a, b) ↔ s = a ++ b ∧ len a = i := by
  refine ⟨eq_of_cut, ?_⟩
  rintro ⟨rfl, rfl⟩
  exact cut_append a b

theorem sliceFrom_append (a b : Text) : (a ++ b).sliceFrom (len a) = some b := by
  rw [sliceFrom, cut_append, Option.map_some]

theorem sliceTo_append (a b : Text) : (a ++ b).sliceTo (len a) = some a := by
  rw [sliceTo, cut_append, Option.map_some]

theorem slice_append (a b c : Text) :
    (a ++ (b ++ c)).slice (len a) (len a + len b) = some b := by
  rw [slice, ← List.append_assoc, ← len_append, sliceTo_append, Option.bind_some, sliceFrom_append]

theorem sliceFrom_isSome {s : Text} {i : ℕ} : (s.sliceFrom i).isSome ↔ s.IsBoundary i := by
  rw [sliceFrom, Option.isSome_map, IsBoundary]

theorem sliceTo_isSome {s : Text} {i : ℕ} : (s.sliceTo i).isSome ↔ s.IsBoundary i := by
  rw [sliceTo, Option.isSome_map, IsBoundary]

/-! ## Splitting into lines -/

/-- A text has one unfinished line, or starts with a finished one. -/
theorem newline_cases (s : Text) :
    '\n' ∉ s ∨ ∃ l rest : Text, s = l ++ '\n' :: rest ∧ '\n' ∉ l := by
  by_cases h : '\n' ∈ s
  · exact Or.inr (List.eq_append_cons_of_mem h)
  · exact Or.inl h

theorem splitLines_append {l : Text} (h : '\n' ∉ l) (rest : Text) :
    splitLines (l ++ '\n' :: rest) = (l ++ ['\n']) :: splitLines rest := by
  induction l with
  | nil => simp [splitLines]
  | cons c l ih =>
    obtain ⟨hc, hl⟩ := not_or.mp (mt List.mem_cons.mpr h)
    rw [List.cons_append, splitLines, if_neg (Ne.symm hc), ih hl]
    rfl

theorem splitLines_of_not_mem {l : Text} (h : '\n' ∉ l) (hne : l ≠ []) : splitLines l = [l] := by
  induction l with
  | nil => exact absurd rfl hne
  | cons c l ih =>
    obtain ⟨hc, hl⟩ := not_or.mp (mt List.mem_cons.mpr h)
    rw [splitLines, if_neg (Ne.symm hc)]
    cases l with
    | nil => rfl
    | cons d l => rw [ih hl (List.cons_ne_nil d l)]

/-- An unfinished text has at most one line. -/
theorem length_splitLines_of_not_mem {s : Text} (h : '\n' ∉ s) : s.splitLines.length ≤ 1 := by
  by_cases hne : s = []
  · simp [hne, splitLines]
  · simp [splitLines_of_not_mem h hne]

/-- **The lines make up the text.** -/
theorem flatten_splitLines (s : Text) : s.splitLines.flatten = s := by
  induction s with
  | nil => rfl
  | cons c s ih =>
    rw [splitLines]
    split
    · rw [List.flatten_cons, ih]
      rfl
    · cases hs : splitLines s with
      | nil =>
        rw [hs] at ih
        simp [← ih]
      | cons line rest =>
        rw [hs] at ih
        simpa using ih

/-- The lines from one on are those of the text they make up. -/
theorem splitLines_flatten_drop (k : ℕ) (s : Text) :
    splitLines (s.splitLines.drop k).flatten = s.splitLines.drop k := by
  induction k generalizing s with
  | zero => rw [List.drop_zero, flatten_splitLines]
  | succ k ih =>
    rcases newline_cases s with hl | ⟨l, rest, rfl, hl⟩
    · by_cases hne : s = []
      · simp [hne, splitLines]
      · simp [splitLines_of_not_mem hl hne, splitLines]
    · rw [splitLines_append hl, List.drop_succ_cons]
      exact ih rest

/-! ## Line endings -/

theorem stripEnding_append (l : Text) : stripEnding (l ++ ['\n']) = dropCr l := by
  simp [stripEnding]

theorem stripEnding_of_not_mem {l : Text} (h : '\n' ∉ l) : stripEnding l = l := by
  rw [stripEnding, if_neg fun hlast => h (List.mem_of_getLast? hlast)]

/-- What is dropped of a line stood at its end. -/
theorem stripEnding_prefix (line : Text) : stripEnding line <+: line := by
  unfold stripEnding dropCr
  split
  · split
    · exact (List.dropLast_prefix _).trans (List.dropLast_prefix _)
    · exact List.dropLast_prefix _
  · exact List.prefix_rfl

/-- **A finished line is longer than its text by one byte, or by two when it ends in `\r\n`.** -/
theorem len_append_newline (l : Text) :
    len (l ++ ['\n']) =
      len (stripEnding (l ++ ['\n'])) + 1 + if EndsCrlf (l ++ ['\n']) then 1 else 0 := by
  rw [stripEnding_append, dropCr]
  rcases List.eq_nil_or_concat l with rfl | ⟨l, c, rfl⟩
  · decide
  · have hcrlf : EndsCrlf (l ++ [c] ++ ['\n']) ↔ c = '\r' := by
      unfold EndsCrlf
      rw [← List.reverse_prefix]
      simp [eq_comm]
    have hsize : '\r'.utf8Size = 1 := rfl
    have hsize' : '\n'.utf8Size = 1 := rfl
    rw [List.concat_eq_append]
    by_cases hc : c = '\r'
    · rw [if_pos (hcrlf.mpr hc)]
      simp [hc, hsize, hsize']
    · rw [if_neg (mt hcrlf.mp hc)]
      simp [hc, hsize', Nat.add_assoc]

end Text
