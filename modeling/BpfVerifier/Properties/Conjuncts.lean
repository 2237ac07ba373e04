import BpfVerifier.Verify.Conjuncts

/-!
# Properties/Conjuncts — which F* output can be read

Two slices of `simplify_term` are taken at byte positions that need not be boundaries of characters:
one byte after the last character before an offset, and at byte 77 of a long term.
`parseConjuncts_isSome` says for which output neither panics.
-/

namespace BpfVerifier

open Text

/-! ## The condition -/

/-- The text up to the parenthesis that closes what a depth leaves open, and the text after it. -/
def closeAt (depth : BitVec 32) : Text → Option (Text × Text)
  | [] => none
  | c :: s =>
    if c = '(' then (closeAt (depth + 1) s).map fun parts => (c :: parts.1, parts.2)
    else if c = ')' then
      if depth - 1 = 0 then some ([], s)
      else (closeAt (depth - 1) s).map fun parts => (c :: parts.1, parts.2)
    else (closeAt depth s).map fun parts => (c :: parts.1, parts.2)

/-- The text after a parenthesised group or a bare token. -/
def afterGroup (s : Text) : Option Text :=
  if s.head? = some '(' then (closeAt 0 s).map Prod.snd else (splitOnce ' ' s).map Prod.snd

/-- The insides of two groups. -/
def twoGroups (s : Text) : Option (Text × Text) :=
  if s.head? = some '(' then
    (closeAt 0 s).map fun parts => (parts.1.tail, unwrapGroup parts.2.trimStart)
  else none

/-- The sides of an `Eq (type) (lhs) (rhs)`. -/
def eqSides (text : Text) : Option (Text × Text) :=
  ((stripPrefix "Eq ".toList text).bind afterGroup).bind fun afterType =>
    twoGroups afterType.trimStart

/-- The terms of a conjunct: both sides of an equation, or else the whole. -/
def conjunctTerms (text : Text) : List Text :=
  match eqSides text with
  | some (lhs, rhs) => [lhs.trim, rhs.trim]
  | none => [text]

/-- Looking for widths in turn until one follows an offset, what stands before the offset has one
byte. -/
def ReadSafe (s : Text) : List Text → Prop
  | [] => True
  | width :: widths =>
    match (before width s).bind fun a => lastWith (fun c => !c.isDigit) a.trim with
    | none => ReadSafe s widths
    | some (_, c, offset) => c.utf8Size = 1 ∧ (offset = [] → ReadSafe s widths)

/-- **A term can be simplified**: a scalar can; a check of a read when what stands before its offset
has one byte; any other when it speaks of a list's length, is short, or can be cut at byte 77. -/
def TermSafe (s : Text) : Prop :=
  "Scalar ".toList.isPrefixOf s ∨
    if IsRead s then ReadSafe s widthTokens
    else contains "List.Tot.Base.length".toList s ∨ s.len ≤ 80 ∨ s.IsBoundary 77

/-! ## Parentheses -/

theorem matchingClose_eq (depth : BitVec 32) (i : ℕ) (s : Text) :
    matchingClose depth i s = (closeAt depth s).map fun parts => i + len parts.1 := by
  induction s generalizing depth i with
  | nil => rfl
  | cons c s ih =>
    rw [matchingClose, closeAt]
    split
    · rw [ih, Option.map_map]
      simp [Function.comp_def, Nat.add_assoc]
    · split
      · split
        · rfl
        · rw [ih, Option.map_map]
          simp [Function.comp_def, Nat.add_assoc]
      · rw [ih, Option.map_map]
        simp [Function.comp_def, Nat.add_assoc]

/-- **What closes is a parenthesis.** -/
theorem eq_of_closeAt {depth : BitVec 32} {s a b : Text} (h : closeAt depth s = some (a, b)) :
    s = a ++ ')' :: b := by
  induction s generalizing depth a with
  | nil => cases h
  | cons c s ih =>
    have hmap {depth' : BitVec 32}
        (h : ((closeAt depth' s).map fun parts => (c :: parts.1, parts.2)) = some (a, b)) :
        c :: s = a ++ ')' :: b := by
      obtain ⟨⟨a', b'⟩, hclose, heq⟩ := Option.map_eq_some_iff.mp h
      obtain ⟨rfl, rfl⟩ := Prod.mk.inj heq
      rw [ih hclose, List.cons_append]
    rw [closeAt] at h
    split at h
    · exact hmap h
    · split at h
      · next hc =>
        split at h
        · obtain ⟨rfl, rfl⟩ := Prod.mk.inj (Option.some.inj h)
          rw [hc]
          rfl
        · exact hmap h
      · exact hmap h

theorem findMatchingClose_eq (s : Text) :
    findMatchingClose s = (closeAt 0 s).map fun parts => len parts.1 := by
  simp [findMatchingClose, matchingClose_eq]

/-- The text after a closing parenthesis. -/
theorem sliceFrom_close (a b : Text) : (a ++ ')' :: b).sliceFrom (len a + 1) = some b := by
  rw [sliceFrom_succ]
  rfl

/-- **Skipping a group panics nowhere.** -/
theorem skipParens_eq (s : Text) : skipParens s = some (afterGroup s) := by
  unfold skipParens afterGroup
  split
  · rw [findMatchingClose_eq]
    cases hclose : closeAt 0 s with
    | none => rfl
    | some parts =>
      obtain ⟨a, b⟩ := parts
      rw [eq_of_closeAt hclose]
      simp [sliceFrom_close]
  · rfl

/-- **Splitting two groups panics nowhere.** -/
theorem splitTopLevelTerms_eq (s : Text) : splitTopLevelTerms s = some (twoGroups s) := by
  unfold splitTopLevelTerms twoGroups
  split
  · next hopen =>
    rw [findMatchingClose_eq]
    cases hclose : closeAt 0 s with
    | none => rfl
    | some parts =>
      obtain ⟨a, b⟩ := parts
      have hs := eq_of_closeAt hclose
      cases a with
      | nil => simp [hs] at hopen
      | cons c a =>
        obtain rfl : c = '(' := by simpa [hs] using hopen
        have hsize : '('.utf8Size = 1 := rfl
        have hfirst : s.slice 1 (len ('(' :: a)) = some a := by
          have hslice := slice_append ['('] a (')' :: b)
          rw [hs]
          simpa [hsize] using hslice
        have hrest : s.sliceFrom (len ('(' :: a) + 1) = some b := by
          rw [hs]
          exact sliceFrom_close ('(' :: a) b
        dsimp only [Option.map_some]
        rw [hfirst, hrest]
        rfl
  · rfl

/-! ## Terms -/

theorem isWhitespace_of_isDigit {c : Char} (h : c.isDigit = true) : isWhitespace c = false := by
  have hbounds : 48 ≤ c.toNat ∧ c.toNat ≤ 57 := by
    simpa [Char.isDigit, UInt32.le_iff_toNat_le] using h
  simp only [isWhitespace, Bool.or_eq_false_iff, Bool.and_eq_false_iff, decide_eq_false_iff_not]
  omega

/-- An offset of digits is empty after trimming just when it was. -/
theorem trim_digits_eq_nil {offset : Text} (h : ∀ c ∈ offset, (!c.isDigit) = false) :
    offset.trim = [] ↔ offset = [] := by
  rw [trim_eq_nil]
  constructor
  · intro hspace
    refine List.eq_nil_iff_forall_not_mem.mpr fun c hc => ?_
    have hdigit : c.isDigit = true := by simpa using h c hc
    have hnot := hspace c hc
    rw [isWhitespace_of_isDigit hdigit] at hnot
    cases hnot
  · rintro rfl
    simp

/-- **Reading an offset panics just where what stands before it has more bytes than one.** -/
theorem simplifyRead_isSome (s : Text) (widths : List Text) :
    (simplifyRead s widths).isSome ↔ ReadSafe s widths := by
  induction widths with
  | nil => simp [simplifyRead, ReadSafe]
  | cons width widths ih =>
    rw [simplifyRead, ReadSafe, find_eq]
    cases hbefore : before width s with
    | none => exact ih
    | some a =>
      simp only [Option.map_some, sliceTo_of_before hbefore, Option.bind_some, rfind_eq]
      cases hlast : lastWith (fun c => !c.isDigit) a.trim with
      | none => exact ih
      | some parts =>
        obtain ⟨b, c, offset⟩ := parts
        obtain ⟨htrim, -, hdigits⟩ := lastWith_eq_some hlast
        simp only [Option.map_some, htrim, sliceFrom_succ]
        by_cases hc : c.utf8Size = 1
        · rw [if_pos hc, Option.bind_some, ← ih, ← trim_digits_eq_nil hdigits]
          by_cases hoffset : offset.trim = []
          · simp [hc, hoffset]
          · simp [hc, hoffset]
        · simp [hc]

theorem isPrefixOf_stripPrefix {p s : Text} : (stripPrefix p s).isSome ↔ p.isPrefixOf s = true := by
  unfold stripPrefix
  split <;> simp [*]

theorem simplifyTerm_isSome (s : Text) : (simplifyTerm s).isSome ↔ TermSafe s := by
  unfold simplifyTerm TermSafe
  rw [← isPrefixOf_stripPrefix]
  cases stripPrefix "Scalar ".toList s with
  | some rest => exact iff_of_true rfl (Or.inl rfl)
  | none =>
    rw [Option.isSome_none, or_iff_right Bool.false_ne_true]
    dsimp only
    by_cases hread : IsRead s
    · rw [if_pos hread, if_pos hread]
      exact simplifyRead_isSome s widthTokens
    rw [if_neg hread, if_neg hread]
    by_cases hlength : contains "List.Tot.Base.length".toList s = true
    · rw [if_pos hlength]
      exact iff_of_true rfl (Or.inl hlength)
    rw [if_neg hlength, or_iff_right hlength]
    by_cases hbool : s = "true".toList ∨ s = "false".toList
    · rw [if_pos hbool]
      refine iff_of_true rfl (Or.inl ?_)
      rcases hbool with rfl | rfl <;> decide
    rw [if_neg hbool]
    by_cases hlong : s.len > 80
    · rw [if_pos hlong, Option.isSome_map, sliceTo_isSome, or_iff_right (by omega)]
    · rw [if_neg hlong]
      exact iff_of_true rfl (Or.inl (by omega))

/-! ## Conjuncts -/

theorem simplifyConjunct_isSome (text : Text) :
    (simplifyConjunct text).isSome ↔ ∀ term ∈ conjunctTerms text, TermSafe term := by
  have hwhole : (simplifyTerm text).isSome ↔ ∀ term ∈ [text], TermSafe term := by
    simp [simplifyTerm_isSome]
  unfold simplifyConjunct conjunctTerms eqSides
  cases stripPrefix "Eq ".toList text with
  | none => exact hwhole
  | some rest =>
    simp only [skipParens_eq, Option.bind_some]
    cases afterGroup rest with
    | none => exact hwhole
    | some afterType =>
      simp only [splitTopLevelTerms_eq, Option.bind_some]
      cases twoGroups afterType.trimStart with
      | none => exact hwhole
      | some sides =>
        obtain ⟨lhs, rhs⟩ := sides
        simp only [List.forall_mem_cons, ← simplifyTerm_isSome]
        cases simplifyTerm lhs.trim with
        | none => simp
        | some lhs' =>
          cases simplifyTerm rhs.trim with
          | none => simp
          | some rhs' =>
            simp only [Option.bind_eq_bind, Option.bind_some, Option.isSome_some, List.not_mem_nil,
              IsEmpty.forall_iff, implies_true, and_self, iff_true]
            split <;> rfl

theorem conjunctsOf_isSome (lines : List Text) :
    (conjunctsOf lines).isSome ↔ ∀ line ∈ lines, ∀ idx text, conjunctLine line = some (idx, text) →
      ∀ term ∈ conjunctTerms text, TermSafe term := by
  induction lines with
  | nil => simp [conjunctsOf]
  | cons line lines ih =>
    rw [conjunctsOf, List.forall_mem_cons, ← ih]
    cases hline : conjunctLine line with
    | none => simp
    | some conjunct =>
      obtain ⟨idx, text⟩ := conjunct
      have hhead : (∀ idx' text', some (idx, text) = some (idx', text') →
          ∀ term ∈ conjunctTerms text', TermSafe term) ↔ (simplifyConjunct text).isSome := by
        rw [simplifyConjunct_isSome]
        constructor
        · exact fun h => h idx text rfl
        · rintro h idx' text' heq
          obtain ⟨rfl, rfl⟩ := Prod.mk.inj (Option.some.inj heq)
          exact h
      rw [hhead]
      dsimp only
      cases simplifyConjunct text with
      | none => simp
      | some text' => cases conjunctsOf lines <;> simp

/-- **F* output is read without a panic** just when each term of its conjuncts can be simplified. -/
theorem parseConjuncts_isSome (stderr : Text) :
    (parseConjuncts stderr).isSome ↔ ∀ line ∈ stderr.lines, ∀ idx text,
      conjunctLine line = some (idx, text) → ∀ term ∈ conjunctTerms text, TermSafe term :=
  conjunctsOf_isSome stderr.lines

/-- A read whose width follows a `λ`. -/
def lambdaOffset : Text := "CONJUNCT|0|ringbuf_read_any rb λ W8 Some _".toList

/-- **A character of two bytes before a width panics.** -/
theorem not_parseConjuncts : ¬∀ stderr, (parseConjuncts stderr).isSome := by
  intro h
  have hread := h lambdaOffset
  revert hread
  decide

/-! ## ASCII -/

theorem closeAt_subset {depth : BitVec 32} {s a b : Text} (h : closeAt depth s = some (a, b)) :
    a ⊆ s ∧ b ⊆ s := by
  rw [eq_of_closeAt h]
  exact ⟨List.subset_append_left _ _,
    List.Subset.trans (List.subset_cons_self _ _) (List.subset_append_right _ _)⟩

theorem afterGroup_subset {s t : Text} (h : afterGroup s = some t) : t ⊆ s := by
  unfold afterGroup at h
  split at h
  · obtain ⟨⟨a, b⟩, hclose, rfl⟩ := Option.map_eq_some_iff.mp h
    exact (closeAt_subset hclose).2
  · obtain ⟨⟨a, b⟩, hsplit, rfl⟩ := Option.map_eq_some_iff.mp h
    exact splitOnce_subset hsplit

theorem unwrapGroup_subset (rest : Text) : unwrapGroup rest ⊆ rest := by
  unfold unwrapGroup
  cases hgroup : (stripPrefix ['('] rest).bind (stripSuffix [')']) with
  | none => exact List.Subset.refl rest
  | some inner =>
    obtain ⟨t, hprefix, hsuffix⟩ := Option.bind_eq_some_iff.mp hgroup
    exact List.Subset.trans (stripSuffix_subset hsuffix) (stripPrefix_subset hprefix)

theorem twoGroups_subset {s lhs rhs : Text} (h : twoGroups s = some (lhs, rhs)) :
    lhs ⊆ s ∧ rhs ⊆ s := by
  unfold twoGroups at h
  split at h
  · obtain ⟨⟨a, b⟩, hclose, heq⟩ := Option.map_eq_some_iff.mp h
    obtain ⟨rfl, rfl⟩ := Prod.mk.inj heq
    obtain ⟨ha, hb⟩ := closeAt_subset hclose
    have hrest : b.trimStart ⊆ s := List.Subset.trans (trimStart_subset b) hb
    exact ⟨List.Subset.trans (List.tail_sublist a).subset ha,
      List.Subset.trans (unwrapGroup_subset _) hrest⟩
  · cases h

/-- The terms of a conjunct are parts of it. -/
theorem subset_of_mem_conjunctTerms {text term : Text} (h : term ∈ conjunctTerms text) :
    term ⊆ text := by
  unfold conjunctTerms at h
  split at h
  · next lhs rhs hsides =>
    obtain ⟨afterType, hafter, hgroups⟩ := Option.bind_eq_some_iff.mp hsides
    obtain ⟨rest, hrest, hafter⟩ := Option.bind_eq_some_iff.mp hafter
    have hfrom : afterType ⊆ text :=
      List.Subset.trans (afterGroup_subset hafter) (stripPrefix_subset hrest)
    have hpart : afterType.trimStart ⊆ text := List.Subset.trans (trimStart_subset _) hfrom
    obtain ⟨hlhs, hrhs⟩ := twoGroups_subset hgroups
    rcases List.mem_pair.mp h with rfl | rfl
    · exact List.Subset.trans (trim_subset lhs) (List.Subset.trans hlhs hpart)
    · exact List.Subset.trans (trim_subset rhs) (List.Subset.trans hrhs hpart)
  · obtain rfl := List.mem_singleton.mp h
    exact List.Subset.refl term

theorem conjunctLine_subset {line text : Text} {idx : ℕ}
    (h : conjunctLine line = some (idx, text)) : text ⊆ line := by
  obtain ⟨rest, hrest, h⟩ := Option.bind_eq_some_iff.mp h
  obtain ⟨⟨idxStr, after⟩, hsplit, h⟩ := Option.bind_eq_some_iff.mp h
  obtain ⟨disjunct, -, heq⟩ := Option.bind_eq_some_iff.mp h
  obtain ⟨-, rfl⟩ := Prod.mk.inj (Option.some.inj heq)
  have hpart : rest ⊆ line := by
    rcases Option.or_eq_some_iff.mp hrest with htac | ⟨-, hplain⟩
    · exact stripPrefix_subset htac
    · exact stripPrefix_subset hplain
  exact List.Subset.trans (splitOnce_subset hsplit) hpart

theorem readSafe_of_ascii {s : Text} (h : ∀ c ∈ s, c.utf8Size = 1) (widths : List Text) :
    ReadSafe s widths := by
  induction widths with
  | nil => trivial
  | cons width widths ih =>
    rw [ReadSafe]
    split
    · exact ih
    · next a c offset hlast =>
      obtain ⟨b, hbefore, hlast⟩ := Option.bind_eq_some_iff.mp hlast
      have hmem : c ∈ b.trim := by
        rw [(lastWith_eq_some hlast).1]
        simp
      exact ⟨h c ((prefix_of_before hbefore).subset (trim_subset b hmem)), fun _ => ih⟩

theorem termSafe_of_ascii {s : Text} (h : ∀ c ∈ s, c.utf8Size = 1) : TermSafe s := by
  refine Or.inr ?_
  split
  · exact readSafe_of_ascii h widthTokens
  · rcases Nat.lt_or_ge 80 s.len with hlong | hshort
    · exact Or.inr (Or.inr (isBoundary_of_ascii h (by omega)))
    · exact Or.inr (Or.inl hshort)

/-- **ASCII output is read without a panic.** -/
theorem parseConjuncts_of_ascii {stderr : Text} (h : ∀ c ∈ stderr, c.utf8Size = 1) :
    (parseConjuncts stderr).isSome := by
  refine (conjunctsOf_isSome stderr.lines).mpr fun line hline idx text htext term hterm => ?_
  refine termSafe_of_ascii fun c hc => h c ?_
  exact subset_of_mem_lines hline (conjunctLine_subset htext (subset_of_mem_conjunctTerms hterm hc))

end BpfVerifier
