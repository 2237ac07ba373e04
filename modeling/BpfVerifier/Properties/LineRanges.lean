import BpfVerifier.Verify.Lines

/-!
# Properties/LineRanges — which lines the ranges of diagnostics select

`line_to_byte_offset` takes every line to end in one byte.  `selectsLine_iff` says on which texts
and lines that does not show.
-/

namespace BpfVerifier

open Text

/-! ## What is to be selected -/

/-- **The range of line `k + 1` is that line**, with the start that counting newlines gives; past
the last line it is some range. -/
def SelectsLine (source : Text) (k : ℕ) : Prop :=
  match source.lines[k]? with
  | some line => ∃ start stop, lineByteRange source (k + 1) = some (start, stop) ∧
      source.slice start stop = some line ∧ start = byteOffsetOfLine source (k + 1)
  | none => (lineByteRange source (k + 1)).isSome

/-- One if the last line has no newline. -/
def unfinished (source : Text) : ℕ := if source = [] ∨ source.getLast? = some '\n' then 0 else 1

/-- The lines that end in `\r\n`. -/
def crlfs (lines : List Text) : ℕ := lines.countP fun line => decide (EndsCrlf line)

/-- **No `\r\n` shifts the line**: none stands before a line of the text; past the last line, taking
one byte off the text for each, and adding one for a missing newline, ends on a character. -/
def Unshifted (source : Text) (k : ℕ) : Prop :=
  if k < source.splitLines.length then ∀ line ∈ source.splitLines.take k, ¬EndsCrlf line
  else source.IsBoundary (source.len + unfinished source - crlfs source.splitLines)

/-! ## Offsets -/

/-- The length of the first lines. -/
def startOfLine (source : Text) (k : ℕ) : ℕ := ((source.splitLines.take k).map len).sum

theorem lineToByteOffset_succ (source : Text) (k : ℕ) :
    lineToByteOffset source (k + 1) =
      ((source.splitLines.take k).map fun line => (stripEnding line).len + 1).sum := by
  simp [lineToByteOffset, lines, List.map_take, Function.comp_def]

theorem unfinished_append (l rest : Text) : unfinished (l ++ '\n' :: rest) = unfinished rest := by
  unfold unfinished
  cases rest with
  | nil => simp
  | cons c rest => simp [List.getLast?_append]

theorem unfinished_of_not_mem {s : Text} (h : '\n' ∉ s) (hne : s ≠ []) : unfinished s = 1 := by
  unfold unfinished
  rw [if_neg]
  rintro (hnil | hlast)
  · exact hne hnil
  · exact h (List.mem_of_getLast? hlast)

theorem not_endsCrlf_of_not_mem {s : Text} (h : '\n' ∉ s) : ¬EndsCrlf s :=
  fun hends => h (hends.subset (by simp))

/-- **Each `\r\n` among the lines added up is one byte too little.** -/
theorem lineToByteOffset_add_crlfs (source : Text) (k : ℕ) :
    lineToByteOffset source (k + 1) + crlfs (source.splitLines.take k) =
      startOfLine source k + if k < source.splitLines.length then 0 else unfinished source := by
  rw [lineToByteOffset_succ, startOfLine]
  rcases newline_cases source with hl | ⟨l, rest, rfl, hl⟩
  · by_cases hne : source = []
    · simp [hne, splitLines, crlfs, unfinished]
    · rw [splitLines_of_not_mem hl hne, unfinished_of_not_mem hl hne]
      cases k with
      | zero => simp [crlfs]
      | succ k => simp [crlfs, stripEnding_of_not_mem hl, not_endsCrlf_of_not_mem hl]
  · rw [splitLines_append hl, unfinished_append]
    cases k with
    | zero => simp [crlfs]
    | succ k =>
      have ih := lineToByteOffset_add_crlfs rest k
      rw [lineToByteOffset_succ, startOfLine] at ih
      have hline := len_append_newline l
      have hcount : crlfs ((l ++ ['\n']) :: rest.splitLines.take k) =
          crlfs (rest.splitLines.take k) + if EndsCrlf (l ++ ['\n']) then 1 else 0 := by
        simp [crlfs, List.countP_cons]
      rw [List.take_succ_cons, List.map_cons, List.map_cons, List.sum_cons, List.sum_cons, hcount,
        List.length_cons]
      simp only [Nat.add_lt_add_iff_right]
      omega

theorem byteOffsetOfLine_eq {source : Text} {k : ℕ} (hk : k < source.splitLines.length) :
    byteOffsetOfLine source (k + 1) = startOfLine source k := by
  cases k with
  | zero => rfl
  | succ k =>
    have hcount := newlineOffset_eq k source 0 0 hk
    rw [Nat.zero_add, Nat.zero_add] at hcount
    rw [byteOffsetOfLine, if_neg (by omega), Nat.add_sub_cancel, hcount, Option.getD_some,
      startOfLine]

/-- The text before a line and the text from it on. -/
theorem flatten_take_drop (source : Text) (k : ℕ) :
    (source.splitLines.take k).flatten ++ (source.splitLines.drop k).flatten = source := by
  rw [← List.flatten_append, List.take_append_drop, flatten_splitLines]

theorem sliceFrom_startOfLine (source : Text) (k : ℕ) :
    source.sliceFrom (startOfLine source k) = some (source.splitLines.drop k).flatten := by
  have hslice := sliceFrom_append (source.splitLines.take k).flatten
    (source.splitLines.drop k).flatten
  rwa [flatten_take_drop, len_flatten] at hslice

/-! ## Ranges -/

theorem lineByteRange_isSome {source : Text} {line : ℕ} :
    (lineByteRange source line).isSome ↔ source.IsBoundary (lineToByteOffset source line) := by
  rw [← sliceFrom_isSome, lineByteRange]
  cases source.sliceFrom (lineToByteOffset source line) <;> simp

/-- A range starts after the bytes added up. -/
theorem start_of_lineByteRange {source : Text} {line start stop : ℕ}
    (h : lineByteRange source line = some (start, stop)) :
    start = lineToByteOffset source line := by
  obtain ⟨tail, -, hpair⟩ := Option.bind_eq_some_iff.mp h
  exact (Prod.mk.inj (Option.some.inj hpair)).1.symm

/-- **From the true start of a line the range is the line.** -/
theorem lineByteRange_eq {source : Text} {k : ℕ} {line : Text}
    (hline : source.lines[k]? = some line)
    (hstart : lineToByteOffset source (k + 1) = startOfLine source k) :
    lineByteRange source (k + 1) = some (startOfLine source k, startOfLine source k + line.len) ∧
      source.slice (startOfLine source k) (startOfLine source k + line.len) = some line := by
  obtain ⟨full, hfull, rfl⟩ :
      ∃ full, source.splitLines[k]? = some full ∧ stripEnding full = line := by
    rw [lines, List.getElem?_map, Option.map_eq_some_iff] at hline
    exact hline
  obtain ⟨hk, hget⟩ := List.getElem?_eq_some_iff.mp hfull
  have hdrop : source.splitLines.drop k = full :: source.splitLines.drop (k + 1) := by
    rw [List.drop_eq_getElem_cons hk, hget]
  constructor
  · have hlines : (lines (source.splitLines.drop k).flatten).head? = some (stripEnding full) := by
      rw [lines, splitLines_flatten_drop, hdrop]
      rfl
    rw [lineByteRange, hstart, sliceFrom_startOfLine]
    simp [hlines]
  · obtain ⟨ending, hending⟩ := stripEnding_prefix full
    have hslice := slice_append (source.splitLines.take k).flatten (stripEnding full)
      (ending ++ (source.splitLines.drop (k + 1)).flatten)
    have hsource : (source.splitLines.take k).flatten ++ (stripEnding full ++
        (ending ++ (source.splitLines.drop (k + 1)).flatten)) = source := by
      rw [← List.append_assoc (stripEnding full), hending, ← List.flatten_cons, ← hdrop,
        flatten_take_drop]
    rwa [hsource, len_flatten] at hslice

/-- Past the last line stands the end of the text. -/
theorem startOfLine_of_le {source : Text} {k : ℕ} (hk : source.splitLines.length ≤ k) :
    startOfLine source k = source.len := by
  rw [startOfLine, List.take_of_length_le hk, ← len_flatten, flatten_splitLines]

theorem crlfs_eq_zero {ls : List Text} : crlfs ls = 0 ↔ ∀ line ∈ ls, ¬EndsCrlf line := by
  simp [crlfs, List.countP_eq_zero]

/-- **A range selects its line just when no `\r\n` shifts it.** -/
theorem selectsLine_iff (source : Text) (k : ℕ) : SelectsLine source k ↔ Unshifted source k := by
  have hoffset := lineToByteOffset_add_crlfs source k
  unfold SelectsLine Unshifted
  by_cases hk : k < source.splitLines.length
  · have hline : source.lines[k]? = some (stripEnding source.splitLines[k]) := by
      rw [lines, List.getElem?_map, List.getElem?_eq_getElem hk]
      rfl
    rw [if_pos hk] at hoffset ⊢
    rw [hline, byteOffsetOfLine_eq hk, ← crlfs_eq_zero]
    constructor
    · rintro ⟨start, stop, hrange, -, rfl⟩
      have hstart := start_of_lineByteRange hrange
      omega
    · intro hcrlfs
      obtain ⟨hrange, hslice⟩ := lineByteRange_eq hline (by omega)
      exact ⟨_, _, hrange, hslice, rfl⟩
  · have hle : source.splitLines.length ≤ k := Nat.le_of_not_lt hk
    have hnone : source.lines[k]? = none := by
      rw [lines, List.getElem?_map, List.getElem?_eq_none hle, Option.map_none]
    rw [if_neg hk] at hoffset ⊢
    rw [List.take_of_length_le hle, startOfLine_of_le hle] at hoffset
    rw [hnone, ← hoffset, Nat.add_sub_cancel]
    exact lineByteRange_isSome

/-- Two lines, the first ending in `\r\n`. -/
def crlfSource : Text := ['a', '\r', '\n', 'b', '\n']

/-- **A `\r\n` shifts the lines after it.** -/
theorem not_selectsLine : ¬∀ source k, SelectsLine source k := by
  intro h
  obtain ⟨start, stop, hrange, -, hstart⟩ := h crlfSource 1
  have hshifted : lineByteRange crlfSource 2 = some (2, 2) := by decide
  have hcounted : byteOffsetOfLine crlfSource 2 = 3 := by decide
  rw [hshifted] at hrange
  rw [hcounted, ← (Prod.mk.inj (Option.some.inj hrange)).1] at hstart
  omega

/-- **With line feeds only, and one at the end, every range selects its line.** -/
theorem unshifted_of_lf {source : Text} (hlf : ∀ line ∈ source.splitLines, ¬EndsCrlf line)
    (hend : unfinished source = 0) (k : ℕ) : Unshifted source k := by
  unfold Unshifted
  split
  · exact fun line hline => hlf line (List.mem_of_mem_take hline)
  · rw [crlfs_eq_zero.mpr hlf, hend]
    rw [Nat.add_zero, Nat.sub_zero, ← sliceFrom_isSome]
    have hslice := sliceFrom_append source []
    rw [List.append_nil] at hslice
    rw [hslice]
    rfl

end BpfVerifier
