import BpfVerifier.Machinery.Text

/-!
# Verify/Lines — byte ranges of source lines

`line_byte_range` of the diagnostics adds up line lengths; `byte_offset_of_line` of the verifier's
reports counts newline bytes.  Lines are numbered from 1.
-/

namespace BpfVerifier

/-- `line_to_byte_offset`. -/
def lineToByteOffset (source : Text) (line : ℕ) : ℕ :=
  -- +1 for newline
  ((source.lines.take (line - 1)).map fun l => l.len + 1).sum

/-- `line_byte_range`: where the line starts and stops; `none` where the slice panics. -/
def lineByteRange (source : Text) (line : ℕ) : Option (ℕ × ℕ) := do
  let start := lineToByteOffset source line
  let tail ← source.sliceFrom start
  let lineText := tail.lines.head?.getD []
  return (start, start + lineText.len)

/-- The loop of `byte_offset_of_line`: the byte after newline number `target`. -/
def newlineOffset (target : ℕ) : List UInt8 → ℕ → ℕ → Option ℕ
  | [], _, _ => none
  | byte :: bytes, i, count =>
    if byte = 10 then
      if count + 1 = target then some (i + 1) else newlineOffset target bytes (i + 1) (count + 1)
    else newlineOffset target bytes (i + 1) count

/-- `byte_offset_of_line`. -/
def byteOffsetOfLine (source : Text) (line : ℕ) : ℕ :=
  if line ≤ 1 then 0 else (newlineOffset (line - 1) source.bytes 0 0).getD source.len

/-! ## Counting newline bytes -/

/-- Only the newline has a newline byte in its encoding. -/
theorem newline_mem_utf8EncodeChar {c : Char} (h : c ≠ '\n') :
    (10 : UInt8) ∉ String.utf8EncodeChar c := by
  have hval : c.val.toNat ≠ 10 := fun hc => h (Char.ext (UInt32.toNat_inj.mp hc))
  have hbyte {n : ℕ} (hn : n < 256) (hne : n ≠ 10) : (10 : UInt8) ≠ UInt8.ofNat n := by
    intro heq
    have hnat := congrArg UInt8.toNat heq
    rw [UInt8.toNat_ofNat', Nat.mod_eq_of_lt hn] at hnat
    exact hne hnat.symm
  fun_cases String.utf8EncodeChar c
  all_goals simp only [List.mem_cons, List.not_mem_nil, or_false, not_or]
  · exact hbyte (by omega) hval
  · exact ⟨hbyte (by omega) (by omega), hbyte (by omega) (by omega)⟩
  · exact ⟨hbyte (by omega) (by omega), hbyte (by omega) (by omega), hbyte (by omega) (by omega)⟩
  · exact ⟨hbyte (by omega) (by omega), hbyte (by omega) (by omega), hbyte (by omega) (by omega),
      hbyte (by omega) (by omega)⟩

theorem newline_mem_bytes {l : Text} (h : '\n' ∉ l) : (10 : UInt8) ∉ l.bytes := by
  intro hmem
  obtain ⟨c, hc, hbyte⟩ := List.mem_flatMap.mp hmem
  exact newline_mem_utf8EncodeChar (fun heq => h (heq ▸ hc)) hbyte

theorem newlineOffset_append {target i count : ℕ} {bytes : List UInt8} (h : (10 : UInt8) ∉ bytes)
    (rest : List UInt8) :
    newlineOffset target (bytes ++ rest) i count =
      newlineOffset target rest (i + bytes.length) count := by
  induction bytes generalizing i with
  | nil => rfl
  | cons byte bytes ih =>
    obtain ⟨hbyte, hbytes⟩ := not_or.mp (mt List.mem_cons.mpr h)
    rw [List.cons_append, newlineOffset, if_neg (Ne.symm hbyte), ih hbytes, List.length_cons]
    congr 1
    omega

/-- **The offset after a newline is the length of the lines up to it.** -/
theorem newlineOffset_eq (k : ℕ) (s : Text) (i count : ℕ) (hk : k + 1 < s.splitLines.length) :
    newlineOffset (count + (k + 1)) s.bytes i count =
      some (i + ((s.splitLines.take (k + 1)).map Text.len).sum) := by
  rcases Text.newline_cases s with hl | ⟨l, rest, rfl, hl⟩
  · have := Text.length_splitLines_of_not_mem hl
    omega
  have hbytes : Text.bytes (l ++ '\n' :: rest) = l.bytes ++ 10 :: rest.bytes := by
    simp [Text.bytes, String.utf8EncodeChar]
  have hnewline : '\n'.utf8Size = 1 := rfl
  rw [Text.splitLines_append hl] at hk ⊢
  rw [hbytes, newlineOffset_append (newline_mem_bytes hl), newlineOffset, if_pos rfl,
    Text.length_bytes, List.take_succ_cons, List.map_cons, List.sum_cons, Text.len_append]
  cases k with
  | zero =>
    rw [if_pos rfl]
    simp [hnewline, Nat.add_assoc]
  | succ k =>
    have hcount : count + (k + 1 + 1) = count + 1 + (k + 1) := by omega
    rw [if_neg (by omega), hcount,
      newlineOffset_eq k rest _ _ (by simpa using hk : k + 1 < rest.splitLines.length)]
    simp [hnewline, Nat.add_assoc]

end BpfVerifier
