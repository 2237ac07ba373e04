import BpfVerifier.Machinery.Text
import Mathlib.Data.List.DropRight

/-!
# Machinery/TextSearch — searching a text, with positions in bytes

`find` and `rfind` return positions; `before` and `lastWith` take the text apart there, so that the
slice a program makes at a position found is known (`find_eq`, `rfind_eq`).
-/

namespace Text

/-- `str::strip_prefix`. -/
def stripPrefix (p s : Text) : Option Text :=
  if p.isPrefixOf s then some (s.drop p.length) else none

/-- `str::strip_suffix`. -/
def stripSuffix (p s : Text) : Option Text :=
  if p.isSuffixOf s then some (s.take (s.length - p.length)) else none

/-- `str::split_once` at a character. -/
def splitOnce (sep : Char) : Text → Option (Text × Text)
  | [] => none
  | c :: s =>
    if c = sep then some ([], s) else (splitOnce sep s).map fun parts => (c :: parts.1, parts.2)

/-- `char::is_whitespace`: the characters with the property White_Space. -/
def isWhitespace (c : Char) : Bool :=
  let v := c.toNat
  (9 ≤ v && v ≤ 13) || v = 0x20 || v = 0x85 || v = 0xa0 || v = 0x1680 ||
    (0x2000 ≤ v && v ≤ 0x200a) || v = 0x2028 || v = 0x2029 || v = 0x202f || v = 0x205f || v = 0x3000

def trimStart (s : Text) : Text := s.dropWhile isWhitespace

def trimEnd (s : Text) : Text := s.rdropWhile isWhitespace

def trim (s : Text) : Text := s.trimStart.trimEnd

/-- `str::find`: where a pattern first occurs. -/
def find (p : Text) : Text → Option ℕ
  | [] => if p.isPrefixOf [] then some 0 else none
  | c :: s => if p.isPrefixOf (c :: s) then some 0 else (find p s).map (c.utf8Size + ·)

/-- `str::contains`. -/
def contains (p s : Text) : Bool := (find p s).isSome

/-- `str::rfind`: where the last character of a kind stands. -/
def rfind (p : Char → Bool) : Text → Option ℕ
  | [] => none
  | c :: s =>
    match rfind p s with
    | some i => some (c.utf8Size + i)
    | none => if p c then some 0 else none

/-- `str::parse::<usize>`. -/
def parseUsize (s : Text) : Option ℕ :=
  let digits : Text := match s with
    | '+' :: rest => rest
    | _ => s
  let n := digits.foldl (fun n c => n * 10 + (c.toNat - '0'.toNat)) 0
  if digits ≠ [] ∧ digits.all Char.isDigit ∧ n < 2 ^ 64 then some n else none

/-! ## The parts around what is found -/

/-- The text before the first occurrence of a pattern. -/
def before (p : Text) : Text → Option Text
  | [] => if p.isPrefixOf [] then some [] else none
  | c :: s => if p.isPrefixOf (c :: s) then some [] else (before p s).map (c :: ·)

/-- The text before the last character of a kind, that character, and the text after it. -/
def lastWith (p : Char → Bool) : Text → Option (Text × Char × Text)
  | [] => none
  | c :: s =>
    match lastWith p s with
    | some (a, d, b) => some (c :: a, d, b)
    | none => if p c then some ([], c, s) else none

theorem find_eq (p s : Text) : find p s = (before p s).map len := by
  induction s with
  | nil =>
    rw [find, before]
    split <;> rfl
  | cons c s ih =>
    rw [find, before]
    split
    · rfl
    · rw [ih, Option.map_map, Option.map_map]
      congr 1

theorem prefix_of_before {p s a : Text} (h : before p s = some a) : a <+: s := by
  induction s generalizing a with
  | nil =>
    rw [before] at h
    split at h
    · obtain rfl := Option.some.inj h
      exact List.prefix_rfl
    · cases h
  | cons c s ih =>
    rw [before] at h
    split at h
    · obtain rfl := Option.some.inj h
      exact List.nil_prefix
    · obtain ⟨a', ha', rfl⟩ := Option.map_eq_some_iff.mp h
      exact List.cons_prefix_cons.mpr ⟨rfl, ih ha'⟩

/-- **The text up to an occurrence found is sliced off.** -/
theorem sliceTo_of_before {p s a : Text} (h : before p s = some a) :
    s.sliceTo (len a) = some a := by
  obtain ⟨b, rfl⟩ := prefix_of_before h
  exact sliceTo_append a b

theorem rfind_eq (p : Char → Bool) (s : Text) :
    rfind p s = (lastWith p s).map fun parts => len parts.1 := by
  induction s with
  | nil => rfl
  | cons c s ih =>
    rw [rfind, lastWith, ih]
    cases lastWith p s with
    | none =>
      simp only [Option.map_none]
      split <;> rfl
    | some parts => simp

theorem lastWith_eq_none {p : Char → Bool} {s : Text} (h : lastWith p s = none) :
    ∀ c ∈ s, p c = false := by
  induction s with
  | nil => simp
  | cons c s ih =>
    rw [lastWith] at h
    cases hs : lastWith p s with
    | some parts => simp [hs] at h
    | none =>
      rw [hs] at h
      cases hc : p c with
      | true => simp [hc] at h
      | false => exact List.forall_mem_cons.mpr ⟨hc, ih hs⟩

theorem lastWith_eq_some {p : Char → Bool} {s a b : Text} {c : Char}
    (h : lastWith p s = some (a, c, b)) :
    s = a ++ c :: b ∧ p c = true ∧ ∀ d ∈ b, p d = false := by
  induction s generalizing a with
  | nil => cases h
  | cons e s ih =>
    rw [lastWith] at h
    cases hs : lastWith p s with
    | some parts =>
      obtain ⟨a', d, b'⟩ := parts
      rw [hs] at h
      obtain ⟨rfl, rfl, rfl⟩ : e :: a' = a ∧ d = c ∧ b' = b := by simpa using h
      obtain ⟨rfl, hd, hrest⟩ := ih hs
      exact ⟨rfl, hd, hrest⟩
    | none =>
      rw [hs] at h
      dsimp only at h
      split at h
      · next he =>
        obtain ⟨rfl, rfl, rfl⟩ : [] = a ∧ e = c ∧ s = b := by simpa using h
        exact ⟨rfl, he, lastWith_eq_none hs⟩
      · cases h

theorem len_le_of_prefix {a s : Text} (h : a <+: s) : len a ≤ len s := by
  obtain ⟨b, rfl⟩ := h
  rw [len_append]
  exact Nat.le_add_right _ _

/-- **After a character found the text can be cut one byte on just when it has one byte.** -/
theorem sliceFrom_succ (a b : Text) (c : Char) :
    (a ++ c :: b).sliceFrom (len a + 1) = if c.utf8Size = 1 then some b else none := by
  have hsplit : a ++ c :: b = (a ++ [c]) ++ b := by simp
  split
  · next hc =>
    have hslice := sliceFrom_append (a ++ [c]) b
    rwa [← hsplit, len_append, len_cons, len_nil, hc] at hslice
  · next hc =>
    have hpos := Char.utf8Size_pos c
    rw [sliceFrom, Option.map_eq_none_iff, Option.eq_none_iff_forall_ne_some]
    rintro ⟨a', b'⟩ hcut
    obtain ⟨heq, hlen⟩ := cut_eq_some.mp hcut
    -- the cut would fall after `a` and before the end of `c`
    rcases List.prefix_or_prefix_of_prefix ⟨b', heq.symm⟩ ⟨b, hsplit.symm⟩ with hle | hle
    · rcases List.prefix_concat_iff.mp hle with rfl | hle
      · simp at hlen
        omega
      · have := len_le_of_prefix hle
        omega
    · have := len_le_of_prefix hle
      simp at this
      omega

/-- Trimming leaves nothing of white space only. -/
theorem trim_eq_nil {s : Text} : s.trim = [] ↔ ∀ c ∈ s, isWhitespace c = true := by
  have hstart : s.trimStart = [] ↔ ∀ c ∈ s, isWhitespace c = true := by
    rw [trimStart, List.dropWhile_eq_nil_iff]
  rw [← hstart, trim, trimEnd, List.rdropWhile_eq_nil_iff]
  refine ⟨fun h => ?_, fun h => by simp [h]⟩
  -- what is left at the front starts with a character that is no white space
  by_contra hne
  have hhead : isWhitespace (s.trimStart.head hne) = false :=
    List.head_dropWhile_not isWhitespace hne
  rw [h _ (List.head_mem hne)] at hhead
  cases hhead

/-! ## Parts of a text -/

theorem trimStart_subset (s : Text) : s.trimStart ⊆ s := (List.dropWhile_sublist _).subset

theorem trim_subset (s : Text) : s.trim ⊆ s := by
  have htrim := List.rdropWhile_prefix isWhitespace s.trimStart
  exact List.Subset.trans htrim.subset (trimStart_subset s)

theorem stripPrefix_subset {p s t : Text} (h : stripPrefix p s = some t) : t ⊆ s := by
  unfold stripPrefix at h
  split at h
  · obtain rfl := Option.some.inj h
    exact List.drop_subset _ _
  · cases h

theorem stripSuffix_subset {p s t : Text} (h : stripSuffix p s = some t) : t ⊆ s := by
  unfold stripSuffix at h
  split at h
  · obtain rfl := Option.some.inj h
    exact List.take_subset _ _
  · cases h

theorem splitOnce_subset {sep : Char} {s a b : Text} (h : splitOnce sep s = some (a, b)) :
    b ⊆ s := by
  induction s generalizing a with
  | nil => cases h
  | cons c s ih =>
    rw [splitOnce] at h
    split at h
    · obtain ⟨-, rfl⟩ := Prod.mk.inj (Option.some.inj h)
      exact List.subset_cons_self c s
    · obtain ⟨⟨a', b'⟩, hsplit, heq⟩ := Option.map_eq_some_iff.mp h
      obtain ⟨-, rfl⟩ := Prod.mk.inj heq
      exact List.Subset.trans (ih hsplit) (List.subset_cons_self c s)

theorem subset_of_mem_lines {s line : Text} (h : line ∈ s.lines) : line ⊆ s := by
  obtain ⟨full, hfull, rfl⟩ := List.mem_map.mp h
  have hline := stripEnding_prefix full
  refine List.Subset.trans hline.subset fun c hc => ?_
  rw [← flatten_splitLines s]
  exact List.mem_flatten.mpr ⟨full, hfull, hc⟩

/-- **A text of characters of one byte each can be cut anywhere.** -/
theorem isBoundary_of_ascii {s : Text} (h : ∀ c ∈ s, c.utf8Size = 1) {i : ℕ} (hi : i ≤ s.len) :
    s.IsBoundary i := by
  have hlen {t : Text} (ht : t ⊆ s) : len t = t.length := by
    rw [len, List.map_congr_left fun c hc => h c (ht hc), List.map_const',
      List.sum_replicate_nat, Nat.mul_one]
  rw [hlen (List.Subset.refl s)] at hi
  have hcut : s.cut i = some (s.take i, s.drop i) := by
    refine cut_eq_some.mpr ⟨(List.take_append_drop i s).symm, ?_⟩
    rw [hlen (List.take_subset i s), List.length_take, Nat.min_eq_left hi]
  rw [IsBoundary, hcut]
  rfl

/-! ## Patterns of several characters -/

/-- `str::rfind`: where a pattern last occurs. -/
def rfindText (p : Text) : Text → Option ℕ
  | [] => if p.isPrefixOf [] then some 0 else none
  | c :: s =>
    match rfindText p s with
    | some i => some (c.utf8Size + i)
    | none => if p.isPrefixOf (c :: s) then some 0 else none

/-- A pattern whose second character is not in the text before it is found where it stands. -/
theorem before_append {x y : Char} {q a t : Text} (ha : y ∉ a) (ht : t.head? ≠ some y)
    (h : x :: y :: q <+: t) : before (x :: y :: q) (a ++ t) = some a := by
  induction a with
  | nil =>
    obtain ⟨u, rfl⟩ := h
    rw [List.nil_append, List.cons_append, before, if_pos]
    exact List.isPrefixOf_iff_prefix.mpr (List.prefix_append (x :: y :: q) u)
  | cons c a ih =>
    obtain ⟨hc, ha⟩ := not_or.mp (mt List.mem_cons.mpr ha)
    have hnot : (x :: y :: q).isPrefixOf (c :: (a ++ t)) = false := by
      refine Bool.eq_false_iff.mpr fun hstarts => ?_
      obtain ⟨-, hnext⟩ := List.cons_prefix_cons.mp (List.isPrefixOf_iff_prefix.mp hstarts)
      cases a with
      | nil =>
        obtain ⟨u, hu⟩ := hnext
        exact ht (congrArg List.head? hu).symm
      | cons d a => exact ha ((List.cons_prefix_cons.mp hnext).1 ▸ List.mem_cons_self)
    rw [List.cons_append, before, hnot, ih ha]
    rfl

/-- A pattern with a character that is not in the text is not found. -/
theorem find_eq_none {p s : Text} {c : Char} (hp : c ∈ p) (hs : c ∉ s) : find p s = none := by
  have hnot {t : Text} (ht : c ∉ t) : p.isPrefixOf t = false :=
    Bool.eq_false_iff.mpr fun h => ht ((List.isPrefixOf_iff_prefix.mp h).subset hp)
  induction s with
  | nil => rw [find, hnot hs]; rfl
  | cons d s ih =>
    rw [find, hnot hs, ih (mt (List.mem_cons_of_mem d) hs)]
    rfl

/-- A pattern that does not occur again is found last. -/
theorem rfindText_append {p t : Text} {c : Char} (a : Text) (h : p <+: c :: t)
    (ht : rfindText p t = none) : rfindText p (a ++ c :: t) = some (len a) := by
  induction a with
  | nil =>
    rw [List.nil_append, rfindText, ht]
    exact if_pos (List.isPrefixOf_iff_prefix.mpr h)
  | cons d a ih => rw [List.cons_append, rfindText, ih, len_cons]

/-! ## Trimming -/

/-- `str::trim_end_matches` of a character. -/
def trimEndMatches (c : Char) (s : Text) : Text := s.rdropWhile (· = c)

theorem trimStart_append {a b : Text} (hb : ∀ c ∈ b.head?, isWhitespace c = false) :
    (a ++ b).trimStart = a.trimStart ++ b := by
  induction a with
  | nil =>
    cases b with
    | nil => rfl
    | cons c b => simp [trimStart, hb c rfl]
  | cons c a ih =>
    rw [List.cons_append, trimStart, List.dropWhile_cons, trimStart, List.dropWhile_cons]
    split
    · exact ih
    · rfl

theorem trimEnd_append {w : Text} (s : Text) (hw : ∀ d ∈ w, isWhitespace d = true) :
    (s ++ w).trimEnd = s.trimEnd := by
  rw [trimEnd, trimEnd, List.rdropWhile, List.reverse_append, List.dropWhile_append_of_pos
    fun d hd => hw d (List.mem_reverse.mp hd)]
  rfl

theorem trimEnd_concat {s : Text} {c : Char} (hc : isWhitespace c = false) :
    (s ++ [c]).trimEnd = s ++ [c] := List.rdropWhile_concat_neg _ _ _ (by simpa using hc)

/-- White space around a text that starts and ends with none is what trimming takes off. -/
theorem trim_append {a b w : Text} {c : Char} (ha : ∀ d ∈ a, isWhitespace d = true)
    (hb : ∀ d ∈ (b ++ [c]).head?, isWhitespace d = false) (hc : isWhitespace c = false)
    (hw : ∀ d ∈ w, isWhitespace d = true) : (a ++ (b ++ [c]) ++ w).trim = b ++ [c] := by
  have hhead : ∀ d ∈ (b ++ [c] ++ w).head?, isWhitespace d = false := by
    rw [List.head?_append_of_ne_nil _ (by simp)]
    exact hb
  have hstart : a.trimStart = [] := List.dropWhile_eq_nil_iff.mpr ha
  rw [List.append_assoc, trim, trimStart_append hhead, hstart, List.nil_append,
    trimEnd_append _ hw, trimEnd_concat hc]

/-- What starts a trimmed line starts the line, if that starts with no white space. -/
theorem prefix_of_prefix_trim {p l : Text} (h : p <+: trim (dropCr l))
    (hl : ∀ c ∈ l.head?, isWhitespace c = false) : p <+: l := by
  have hdrop : dropCr l <+: l := by
    unfold dropCr
    split
    · exact List.dropLast_prefix l
    · exact List.prefix_rfl
  have hstart : (dropCr l).trimStart = dropCr l := by
    cases hcr : dropCr l with
    | nil => rfl
    | cons c s =>
      obtain ⟨t, rfl⟩ := hcr ▸ hdrop
      simp [trimStart, hl c rfl]
  rw [trim, hstart] at h
  exact h.trans ((List.rdropWhile_prefix _ _).trans hdrop)

/-! ## Lines put together -/

/-- Finished lines. -/
def unlines (ls : List Text) : Text := ls.flatMap fun l => l ++ ['\n']

theorem dropCr_append {p : Text} (hp : p.getLast? ≠ some '\r') (s : Text) :
    dropCr (p ++ s) = p ++ dropCr s := by
  rcases List.eq_nil_or_concat s with rfl | ⟨s, c, rfl⟩
  · rw [dropCr, List.append_nil, if_neg hp, dropCr, if_neg (by simp), List.append_nil]
  · rw [List.concat_eq_append, dropCr, dropCr, ← List.append_assoc, List.getLast?_concat,
      List.getLast?_concat]
    split
    · rw [List.dropLast_concat, List.dropLast_concat]
    · rw [List.append_assoc]

theorem lines_append {l : Text} (h : '\n' ∉ l) (rest : Text) :
    (l ++ '\n' :: rest).lines = dropCr l :: rest.lines := by
  rw [lines, splitLines_append h, List.map_cons, stripEnding_append, lines]

/-- **Finished lines are the lines of a text they start.** -/
theorem lines_unlines {ls : List Text} (h : ∀ l ∈ ls, '\n' ∉ l) (rest : Text) :
    (unlines ls ++ rest).lines = ls.map dropCr ++ rest.lines := by
  induction ls with
  | nil => rfl
  | cons l ls ih =>
    have hsplit : unlines (l :: ls) ++ rest = l ++ '\n' :: (unlines ls ++ rest) := by
      simp [unlines]
    rw [hsplit, lines_append (h l List.mem_cons_self),
      ih fun u hu => h u (List.mem_cons_of_mem l hu)]
    rfl

end Text
