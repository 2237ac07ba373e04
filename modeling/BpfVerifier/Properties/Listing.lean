import BpfVerifier.Codegen.Listing

/-!
# Properties/Listing — the programme is found again in the generated module

An instruction starts with `BPF_`, stands on one line and holds neither a star nor a semicolon, so
whatever the source locations are, a pc leads back to its instruction
(`extractInstructionAtPc_generatedText`), and F\* reads the list as the programme
(`readProgram_generatedText`).
-/

namespace BpfVerifier

open Text (trim unlines isWhitespace)

/-! ## The text of an instruction -/

namespace BpfInsn

variable (insn : BpfInsn)

theorem ne_nil_of_mem_fstarWords : ∀ w ∈ insn.fstarWords, w ≠ [] := by
  have haluOp (op : AluOp) : op.display ≠ "" := by cases op <;> decide
  have hjmpOp (op : JmpOp) : op.display ≠ "" := by cases op <;> decide
  have hwidth (width : MemWidth) : width.display ≠ "" := by cases width <;> decide
  have hhelper : ∀ spec ∈ HELPERS, spec.name ≠ "" := by decide +kernel
  unfold fstarWords
  split
  case h_13 =>
    split
    · rename_i spec hspec
      simp [hhelper spec (mem_helpers_of_getHelper hspec)]
    · simp
  all_goals simp [haluOp, hjmpOp, hwidth, Reg.display, int32Text, jumpText]

theorem head_fstarWords : ∃ name args, insn.fstarWords = ("BPF_".toList ++ name) :: args := by
  unfold fstarWords
  split
  case h_13 => split <;> exact ⟨"CALL".toList, _, rfl⟩
  all_goals exact ⟨_, _, rfl⟩

/-- An instruction starts with `BPF_`. -/
theorem text_eq_append : ∃ t, insn.text = "BPF_".toList ++ t := by
  obtain ⟨name, args, hwords⟩ := insn.head_fstarWords
  rw [text, hwords]
  cases args with
  | nil => exact ⟨name, Text.unwords_singleton _⟩
  | cons w args => exact ⟨_, by rw [Text.unwords_cons_cons, List.append_assoc]⟩

/-- An instruction ends with a character of a token. -/
theorem text_eq_concat : ∃ t c, insn.text = t ++ [c] ∧ isTokenChar c = true := by
  obtain ⟨ws, w, hwords⟩ : ∃ ws w, insn.fstarWords = ws ++ [w] :=
    ⟨_, _, (List.dropLast_append_getLast insn.fstarWords_ne_nil).symm⟩
  have hmem : w ∈ insn.fstarWords := hwords ▸ List.mem_append_right ws List.mem_cons_self
  obtain ⟨v, c, rfl⟩ : ∃ v c, w = v ++ [c] :=
    ⟨_, _, (List.dropLast_append_getLast (insn.ne_nil_of_mem_fstarWords w hmem)).symm⟩
  refine ⟨Text.unwords (ws ++ [v]), c, ?_, insn.isToken_fstarWords _ hmem c (by simp)⟩
  rw [text, hwords]
  exact Text.intercalate_append [' '] ws v [c]

/-- An instruction has no character that is neither a word's nor a space. -/
theorem not_mem_text {c : Char} (hspace : c ≠ ' ') (hc : isTokenChar c = false) :
    c ∉ insn.text := by
  intro h
  rcases insn.mem_text h with rfl | hword
  · exact hspace rfl
  · exact absurd hword (by simp [hc])

end BpfInsn

theorem isWhitespace_of_isTokenChar {c : Char} (h : isTokenChar c = true) :
    isWhitespace c = false := by
  by_contra hspace
  have hval : c.toNat ≤ 32 ∨ 122 < c.toNat := by
    simp only [isWhitespace, Bool.not_eq_false, Bool.or_eq_true, Bool.and_eq_true,
      decide_eq_true_eq] at hspace
    omega
  simp only [isTokenChar, Bool.or_eq_true, decide_eq_true_eq] at h
  rcases h with (((h | rfl) | rfl) | rfl) | rfl
  · change ((65 ≤ c.val ∧ c.val ≤ 90) || (97 ≤ c.val && c.val ≤ 122) ||
      (48 ≤ c.val && c.val ≤ 57)) = true at h
    simp only [Bool.or_eq_true, Bool.and_eq_true, decide_eq_true_eq, UInt32.le_iff_toNat_le] at h
    change (65 ≤ c.toNat ∧ c.toNat ≤ 90 ∨ 97 ≤ c.toNat ∧ c.toNat ≤ 122) ∨
      48 ≤ c.toNat ∧ c.toNat ≤ 57 at h
    omega
  all_goals exact absurd hval (by decide)

/-! ## A line of the list -/

/-- What stands between an instruction and the end of its line. -/
def lineMark : List Text → Text
  | [] => []
  | _ :: _ => [';']

theorem listLines_cons (entry : Text) (rest : List Text) :
    listLines (entry :: rest) = ("  ".toList ++ entry ++ lineMark rest) :: listLines rest := by
  cases rest with
  | nil => simp [listLines, lineMark]
  | cons e rest => rfl

/-- A source location as it is read back: without white space before it. -/
def SourceLoc.trimmed (loc : SourceLoc) : Text :=
  Text.trimStart loc.file.toList ++ ':' :: (toString loc.line.toNat).toList

theorem SourceLoc.trim_text (loc : SourceLoc) : trim loc.text = loc.trimmed := by
  have hne : (toString loc.line.toNat).toList ≠ [] := by
    have htext : (toString loc.line.toNat).toList = Nat.toDigits 10 loc.line.toNat :=
      Nat.toList_repr
    exact htext ▸ Nat.toDigits_ne_nil
  obtain ⟨ds, d, hdigits⟩ : ∃ ds d, (toString loc.line.toNat).toList = ds ++ [d] :=
    ⟨_, _, (List.dropLast_append_getLast hne).symm⟩
  have hd : isTokenChar d = true :=
    isToken_nat loc.line.toNat d (hdigits ▸ List.mem_append_right ds List.mem_cons_self)
  have hcolon : ∀ c ∈ (':' :: (toString loc.line.toNat).toList).head?, isWhitespace c = false := by
    rintro c ⟨⟩
    decide
  have hend := Text.trimEnd_concat (s := Text.trimStart loc.file.toList ++ ':' :: ds)
    (isWhitespace_of_isTokenChar hd)
  rw [SourceLoc.text, trim, Text.trimStart_append hcolon, hdigits, SourceLoc.trimmed, hdigits]
  simpa using hend

namespace BpfInsn

variable (insn : BpfInsn)

theorem head_text : ∀ c ∈ insn.text.head?, isWhitespace c = false := by
  obtain ⟨t, ht⟩ := insn.text_eq_append
  rw [ht]
  rintro c ⟨⟩
  decide

/-- White space around an instruction is trimmed. -/
theorem trim_text {a w : Text} (ha : ∀ d ∈ a, isWhitespace d = true)
    (hw : ∀ d ∈ w, isWhitespace d = true) : trim (a ++ insn.text ++ w) = insn.text := by
  obtain ⟨t, c, ht, hc⟩ := insn.text_eq_concat
  have hhead := insn.head_text
  rw [ht] at hhead ⊢
  exact Text.trim_append ha hhead (isWhitespace_of_isTokenChar hc) hw

/-- A semicolon after an instruction is taken off. -/
theorem trimEndMatches_text {mark : Text} (hmark : mark = [] ∨ mark = [';']) :
    Text.trimEndMatches ';' (insn.text ++ mark) = insn.text := by
  obtain ⟨t, c, ht, hc⟩ := insn.text_eq_concat
  have hne : ¬decide (c = ';') = true := by
    rintro hdec
    rw [of_decide_eq_true hdec] at hc
    exact absurd hc (by decide)
  have hend : Text.trimEndMatches ';' insn.text = insn.text := by
    rw [ht]
    exact List.rdropWhile_concat_neg _ _ _ hne
  rcases hmark with rfl | rfl
  · rw [List.append_nil, hend]
  · exact (List.rdropWhile_concat_pos _ _ _ (by decide)).trans hend

end BpfInsn

/-- **A line is taken apart** into its instruction and its source location. -/
theorem instructionInfo_annotate (pc : ℕ) (insn : BpfInsn) (loc : Option SourceLoc) {mark : Text}
    (hmark : mark = [] ∨ mark = [';']) : instructionInfo pc (annotate insn loc ++ mark) =
      some ⟨pc, insn.text, loc.map SourceLoc.trimmed⟩ := by
  have hstar : '*' ∉ insn.text := insn.not_mem_text (by decide) (by decide)
  have htrim : trim insn.text = insn.text := by
    have := insn.trim_text (a := []) (w := []) (by simp) (by simp)
    simpa using this
  cases loc with
  | none =>
    have hnone : '*' ∉ insn.text ++ mark := by
      rcases hmark with rfl | rfl
      · simpa using hstar
      · simpa using hstar
    have hfind : Text.find "(* ".toList (insn.text ++ mark) = none :=
      Text.find_eq_none (by decide) hnone
    simp only [instructionInfo, annotate, hfind, insn.trimEndMatches_text hmark, htrim,
      Option.map_none]
  | some loc =>
    have hopen : '*' ∉ insn.text ++ "  ".toList := by simpa using hstar
    generalize ha : insn.text ++ "  ".toList = a at hopen
    have hline : annotate insn (some loc) ++ mark =
        a ++ "(* ".toList ++ loc.text ++ (" *)".toList ++ mark) := by
      simp [annotate, ← ha]
    have hfind : Text.find "(* ".toList (annotate insn (some loc) ++ mark) = some (Text.len a) := by
      rw [hline, List.append_assoc, List.append_assoc, Text.find_eq]
      exact congrArg (Option.map Text.len)
        (Text.before_append hopen (by simp) (List.prefix_append "(* ".toList _))
    have hrfind : Text.rfindText " *)".toList (annotate insn (some loc) ++ mark) =
        some (Text.len (a ++ "(* ".toList) + Text.len loc.text) := by
      rw [hline, ← Text.len_append]
      refine Text.rfindText_append _ (List.prefix_append " *)".toList mark) ?_
      rcases hmark with rfl | rfl <;> decide
    have hlen : Text.len (a ++ "(* ".toList) = Text.len a + 3 := Text.len_append a _
    have hslice : (annotate insn (some loc) ++ mark).slice (Text.len a + 3)
        (Text.len (a ++ "(* ".toList) + Text.len loc.text) = some loc.text := by
      rw [hline, ← hlen, List.append_assoc (a ++ _)]
      exact Text.slice_append _ _ _
    have hto : (annotate insn (some loc) ++ mark).sliceTo (Text.len a) = some a := by
      rw [hline, List.append_assoc, List.append_assoc]
      exact Text.sliceTo_append _ _
    have hlt : Text.len a < Text.len (a ++ "(* ".toList) + Text.len loc.text := by omega
    have hinsn : trim a = insn.text := by
      have := insn.trim_text (a := []) (w := "  ".toList) (by simp)
        (List.all_eq_true.mp (by decide))
      rwa [List.nil_append, ha] at this
    have hmatches := insn.trimEndMatches_text (Or.inl rfl)
    rw [List.append_nil] at hmatches
    simp only [instructionInfo, hfind, hrfind, if_pos hlt, hto, hslice, Option.bind_eq_bind,
      Option.bind_some, Option.pure_def, hinsn, hmatches, htrim, loc.trim_text, Option.map_some]

/-! ## From a pc to its line -/

/-- Lines that write no instruction are passed over. -/
theorem instructionAt_append {pc k : ℕ} {ls : List Text}
    (h : ∀ l ∈ ls, ¬"BPF_".toList <+: trim l) (rest : List Text) :
    instructionAt pc k (ls ++ rest) = instructionAt pc k rest := by
  induction ls with
  | nil => rfl
  | cons l ls ih =>
    obtain ⟨hl, hls⟩ := List.forall_mem_cons.mp h
    rw [List.cons_append, instructionAt, if_neg (mt List.isPrefixOf_iff_prefix.mp hl), ih hls]

theorem lineMark_cases (rest : List Text) : lineMark rest = [] ∨ lineMark rest = [';'] := by
  cases rest with
  | nil => exact Or.inl rfl
  | cons e rest => exact Or.inr rfl

/-- A line of the list is an entry, trimmed. -/
theorem trim_line (insn : BpfInsn) (loc : Option SourceLoc) {mark : Text}
    (hmark : mark = [] ∨ mark = [';']) :
    trim (Text.dropCr ("  ".toList ++ annotate insn loc ++ mark)) = annotate insn loc ++ mark := by
  -- the line ends with a semicolon, a parenthesis or a character of a token
  obtain ⟨t, c, hline, hspace, hcr⟩ : ∃ t c, annotate insn loc ++ mark = t ++ [c] ∧
      isWhitespace c = false ∧ c ≠ '\r' := by
    rcases hmark with rfl | rfl
    · cases loc with
      | none =>
        obtain ⟨t, c, ht, hc⟩ := insn.text_eq_concat
        refine ⟨t, c, by simp [annotate, ht], isWhitespace_of_isTokenChar hc, ?_⟩
        rintro rfl
        exact absurd hc (by decide)
      | some loc =>
        exact ⟨insn.text ++ "  (* ".toList ++ loc.text ++ " *".toList, ')', by simp [annotate],
          by decide, by decide⟩
    · exact ⟨_, ';', rfl, by decide, by decide⟩
  have hhead : ∀ d ∈ (t ++ [c]).head?, isWhitespace d = false := by
    obtain ⟨u, hu⟩ := insn.text_eq_append
    rw [← hline]
    cases loc <;> (rw [annotate, hu]; rintro d ⟨⟩; decide)
  have hdrop : Text.dropCr ("  ".toList ++ (t ++ [c])) = "  ".toList ++ (t ++ [c]) := by
    rw [Text.dropCr, ← List.append_assoc, List.getLast?_concat, if_neg]
    exact fun h => hcr (Option.some.inj h)
  rw [List.append_assoc, hline, hdrop]
  have htrim := Text.trim_append (a := "  ".toList) (w := []) (List.all_eq_true.mp (by decide))
    hhead hspace (by simp)
  rwa [List.append_nil] at htrim

/-- **The list**: a pc leads to the entry written for it. -/
theorem instructionAt_listLines {insn : BpfInsn} {loc : Option SourceLoc} (tail : List Text) :
    ∀ {instructions : List BpfInsn} {sourceLocs : List (Option SourceLoc)} {j : ℕ} (k : ℕ),
      instructions[j]? = some insn → sourceLocs[j]? = some loc →
      instructionAt (k + j) k
          ((listLines (annotated instructions sourceLocs)).map Text.dropCr ++ tail) =
        some (some ⟨k + j, insn.text, loc.map SourceLoc.trimmed⟩)
  | [], _, _, _, hinsn, _ => by cases hinsn
  | _ :: _, [], _, _, _, hloc => by cases hloc
  | first :: instructions, at₀ :: sourceLocs, j, k, hinsn, hloc => by
    have hmark := lineMark_cases (annotated instructions sourceLocs)
    have hcons : annotated (first :: instructions) (at₀ :: sourceLocs) =
        annotate first at₀ :: annotated instructions sourceLocs := rfl
    have hstarts (mark : Text) : "BPF_".toList.isPrefixOf (annotate first at₀ ++ mark) = true := by
      obtain ⟨u, hu⟩ := first.text_eq_append
      cases at₀ <;> (rw [annotate, hu]; rfl)
    rw [hcons, listLines_cons, List.map_cons, List.cons_append, instructionAt,
      trim_line first at₀ hmark, if_pos (hstarts _)]
    cases j with
    | zero =>
      obtain rfl := Option.some.inj hinsn
      obtain rfl := Option.some.inj hloc
      rw [Nat.add_zero, if_pos rfl, instructionInfo_annotate _ _ _ hmark]
      rfl
    | succ j =>
      have ih := instructionAt_listLines tail (k + 1) (j := j) hinsn hloc
      rw [if_neg (by omega), show k + (j + 1) = k + 1 + j by omega]
      exact ih

/-- The header is one of lines, and writes no instruction. -/
theorem headerLines_spec {programName specModule : Text} (hname : '\n' ∉ programName)
    (hspec : '\n' ∉ specModule) : ∀ l ∈ headerLines programName specModule,
      '\n' ∉ l ∧ ¬"BPF_".toList <+: trim (Text.dropCr l) := by
  have hword {c : Char} {l : Text} (hc : isWhitespace c = false) (hne : c ≠ 'B') :
      ¬"BPF_".toList <+: trim (Text.dropCr (c :: l)) := by
    intro hstarts
    have hp := Text.prefix_of_prefix_trim hstarts (by rintro d ⟨⟩; exact hc)
    exact hne (List.cons_prefix_cons.mp hp).1.symm
  intro l hl
  simp only [headerLines, List.mem_append, List.mem_cons, List.not_mem_nil, or_false] at hl
  rcases hl with ((hl | rfl) | hl) | rfl | rfl
  · revert l
    decide +kernel
  · exact ⟨by simpa using hname, hword (by decide) (by decide)⟩
  · revert l
    decide +kernel
  · exact ⟨by simpa using hspec, hword (by decide) (by decide)⟩
  · decide

theorem newline_not_mem_listLines {instructions : List BpfInsn}
    {sourceLocs : List (Option SourceLoc)}
    (hfiles : ∀ loc, some loc ∈ sourceLocs → '\n' ∉ loc.file.toList) :
    ∀ l ∈ listLines (annotated instructions sourceLocs), '\n' ∉ l := by
  induction instructions generalizing sourceLocs with
  | nil => simp [annotated, listLines]
  | cons insn instructions ih =>
    cases sourceLocs with
    | nil => simp [annotated, listLines]
    | cons loc sourceLocs =>
      have hinsn : '\n' ∉ insn.text := insn.not_mem_text (by decide) (by decide)
      have hentry : '\n' ∉ annotate insn loc := by
        cases loc with
        | none => exact hinsn
        | some loc =>
          have hline : '\n' ∉ (toString loc.line.toNat).toList := fun h =>
            absurd (isToken_nat _ _ h) (by decide)
          have htext : (toString loc.line.toNat).toList = Nat.toDigits 10 loc.line.toNat :=
            Nat.toList_repr
          rw [htext] at hline
          have hfile := hfiles loc List.mem_cons_self
          simp [annotate, SourceLoc.text, hinsn, hfile, hline]
      have hmark : '\n' ∉ lineMark (annotated instructions sourceLocs) := by
        rcases lineMark_cases (annotated instructions sourceLocs) with h | h <;> rw [h] <;> decide
      have hcons : annotated (insn :: instructions) (loc :: sourceLocs) =
          annotate insn loc :: annotated instructions sourceLocs := rfl
      rw [hcons, listLines_cons]
      refine List.forall_mem_cons.mpr ⟨?_, ih fun l hl => hfiles l (List.mem_cons_of_mem loc hl)⟩
      simp [hentry, hmark]

/-- **A pc leads back to its instruction** in the generated module, whatever else is written. -/
theorem extractInstructionAtPc_generatedText (programName specModule rest : Text)
    (instructions : List BpfInsn) (sourceLocs : List (Option SourceLoc))
    (hname : '\n' ∉ programName) (hspec : '\n' ∉ specModule)
    (hfiles : ∀ loc, some loc ∈ sourceLocs → '\n' ∉ loc.file.toList) (pc : ℕ) (insn : BpfInsn)
    (loc : Option SourceLoc) (hinsn : instructions[pc]? = some insn)
    (hloc : sourceLocs[pc]? = some loc) :
    ∃ info, extractInstructionAtPc
        (generatedText programName specModule instructions sourceLocs rest) pc =
          some (some info) ∧
      info.pc = pc ∧ readInsn info.instruction = insn.toFstar ∧
        info.sourceLoc = loc.map SourceLoc.trimmed := by
  have hheader := headerLines_spec hname hspec
  have hlines : ∀ l ∈ headerLines programName specModule ++
      programLines (annotated instructions sourceLocs), '\n' ∉ l := by
    intro l hl
    simp only [programLines, List.mem_append, List.mem_singleton] at hl
    rcases hl with hl | (rfl | hl) | rfl
    · exact (hheader l hl).1
    · decide
    · exact newline_not_mem_listLines hfiles l hl
    · decide
  have hskip : ∀ l ∈ (headerLines programName specModule ++
      ["let program : bpf_program = [".toList]).map Text.dropCr, ¬"BPF_".toList <+: trim l := by
    intro l hl
    obtain ⟨u, hu, rfl⟩ := List.mem_map.mp hl
    rcases List.mem_append.mp hu with hu | hu
    · exact (hheader u hu).2
    · rw [List.mem_singleton.mp hu]
      decide
  have hat := instructionAt_listLines
    (([[]] : List Text).map Text.dropCr ++ Text.lines (']' :: rest)) 0 hinsn hloc
  rw [Nat.zero_add] at hat
  have hsplit : (headerLines programName specModule ++
      programLines (annotated instructions sourceLocs)).map Text.dropCr =
        (headerLines programName specModule ++
          ["let program : bpf_program = [".toList]).map Text.dropCr ++
        ((listLines (annotated instructions sourceLocs)).map Text.dropCr ++
          ([[]] : List Text).map Text.dropCr) := by
    simp only [programLines, List.map_append, List.append_assoc]
  refine ⟨⟨pc, insn.text, loc.map SourceLoc.trimmed⟩, ?_, rfl, readInsn_text insn, rfl⟩
  rw [extractInstructionAtPc, generatedText, Text.lines_unlines hlines, hsplit, List.append_assoc,
    instructionAt_append hskip, List.append_assoc, hat]

/-- `r0 = 0; exit`, of which the first instruction is from line 3 of `test.bpf.c`. -/
def returnZeroLocs : List (Option SourceLoc) := [some ⟨"test.bpf.c", "/src/test.bpf.c", 3⟩, none]

theorem newline_not_mem_returnZeroLocs :
    ∀ loc, some loc ∈ returnZeroLocs → '\n' ∉ loc.file.toList := by
  intro loc h
  obtain rfl : loc = ⟨"test.bpf.c", "/src/test.bpf.c", 3⟩ := by simpa [returnZeroLocs] using h
  decide +kernel

theorem extractInstructionAtPc_returnZero : ∃ info, extractInstructionAtPc
    (generatedText "xdp".toList "Spec".toList [.aluImm .mov .r0 0, .ret] returnZeroLocs []) 0 =
      some (some info) ∧
    info.pc = 0 ∧ readInsn info.instruction = (BpfInsn.aluImm .mov .r0 0).toFstar ∧
      info.sourceLoc =
        (some ⟨"test.bpf.c", "/src/test.bpf.c", 3⟩ : Option SourceLoc).map SourceLoc.trimmed :=
  extractInstructionAtPc_generatedText "xdp".toList "Spec".toList [] _ returnZeroLocs (by decide)
    (by decide) newline_not_mem_returnZeroLocs 0 _ _ rfl rfl

/-! ## The list as F\* reads it -/

theorem stripComments_cons {c : Char} (hc : c ≠ '(') (s : Text) :
    stripComments 0 (c :: s) = c :: stripComments 0 s := by
  rw [stripComments]
  exact fun _ h => absurd h hc

/-- Outside comments a text without stars is left as it is. -/
theorem stripComments_append {a s : Text} (ha : '*' ∉ a) (hs : s.head? ≠ some '*') :
    stripComments 0 (a ++ s) = a ++ stripComments 0 s := by
  induction a with
  | nil => rfl
  | cons c a ih =>
    obtain ⟨-, hrest⟩ := not_or.mp (mt List.mem_cons.mpr ha)
    rw [List.cons_append, stripComments, ih hrest, List.cons_append]
    rintro s' - heq
    cases a with
    | nil => exact hs (congrArg List.head? heq)
    | cons d a => exact hrest ((List.cons.inj heq).1 ▸ List.mem_cons_self)

/-- Inside a comment a text without stars is left out. -/
theorem stripComments_succ_append {a s : Text} (ha : '*' ∉ a) (hs : s.head? ≠ some '*')
    (depth : ℕ) : stripComments (depth + 1) (a ++ s) = stripComments (depth + 1) s := by
  induction a with
  | nil => rfl
  | cons c a ih =>
    obtain ⟨hc, hrest⟩ := not_or.mp (mt List.mem_cons.mpr ha)
    rw [List.cons_append, stripComments, ih hrest]
    · rintro s' - heq
      cases a with
      | nil => exact hs (congrArg List.head? heq)
      | cons d a => exact hrest ((List.cons.inj heq).1 ▸ List.mem_cons_self)
    · rintro s' rfl
      exact absurd rfl hc

/-- What is left of an entry: the instruction, and the spaces before its comment. -/
def uncommented (insn : BpfInsn) : Option SourceLoc → Text
  | some _ => insn.text ++ "  ".toList
  | none => insn.text

/-- **The comment is left out.** -/
theorem stripComments_annotate (insn : BpfInsn) {loc : Option SourceLoc}
    (hfile : ∀ l ∈ loc, '*' ∉ l.file.toList) {t : Text} (ht : t.head? ≠ some '*') :
    stripComments 0 (annotate insn loc ++ t) = uncommented insn loc ++ stripComments 0 t := by
  have hstar : '*' ∉ insn.text := insn.not_mem_text (by decide) (by decide)
  cases loc with
  | none => exact stripComments_append hstar ht
  | some loc =>
    have hfile := hfile loc rfl
    have hline : '*' ∉ (toString loc.line.toNat).toList := fun h =>
      absurd (isToken_nat _ _ h) (by decide)
    have hloc : '*' ∉ ' ' :: loc.text := by
      simp only [SourceLoc.text, List.mem_cons, List.mem_append, not_or]
      exact ⟨by decide, hfile, by decide, hline⟩
    have hopen : '*' ∉ insn.text ++ "  ".toList := by simpa using hstar
    have hsplit : annotate insn (some loc) ++ t =
        (insn.text ++ "  ".toList) ++
          '(' :: '*' :: ((' ' :: loc.text) ++ ' ' :: '*' :: ')' :: t) := by
      simp [annotate]
    rw [hsplit, stripComments_append hopen (by simp), stripComments,
      stripComments_succ_append hloc (by simp)]
    rfl

/-- The items of the list without their comments. -/
def items (l : List (BpfInsn × Option SourceLoc)) : List Text :=
  l.map fun e => "\n  ".toList ++ uncommented e.1 e.2

/-- A line of the list without its comment, and what comes after it. -/
theorem stripComments_line {e : BpfInsn × Option SourceLoc}
    (hfile : ∀ loc ∈ e.2, '*' ∉ loc.file.toList) {t : Text} (ht : t.head? ≠ some '*') :
    stripComments 0 ("\n  ".toList ++ annotate e.1 e.2 ++ t) =
      "\n  ".toList ++ uncommented e.1 e.2 ++ stripComments 0 t := by
  have hhead : (annotate e.1 e.2 ++ t).head? ≠ some '*' := by
    obtain ⟨u, hu⟩ := e.1.text_eq_append
    cases e.2 <;> simp [annotate, hu]
  rw [List.append_assoc, stripComments_append (by decide) hhead,
    stripComments_annotate e.1 hfile ht, List.append_assoc]

theorem stripComments_listLines {t : Text} (ht : t.head? ≠ some '*') :
    ∀ {l : List (BpfInsn × Option SourceLoc)}, l ≠ [] →
      (∀ e ∈ l, ∀ loc ∈ e.2, '*' ∉ loc.file.toList) →
      stripComments 0 ('\n' :: (unlines (listLines (l.map fun e => annotate e.1 e.2)) ++ t)) =
        [';'].intercalate (items l) ++ '\n' :: stripComments 0 t
  | [], hne, _ => absurd rfl hne
  | [e], _, hfiles => by
    have hline : '\n' :: (unlines (listLines [annotate e.1 e.2]) ++ t) =
        "\n  ".toList ++ annotate e.1 e.2 ++ '\n' :: t := by simp [unlines, listLines]
    rw [List.map_singleton, hline, stripComments_line (hfiles e List.mem_cons_self) (by simp),
      stripComments_cons (by decide), items, List.map_singleton, List.intercalate_singleton]
  | e :: e' :: l, _, hfiles => by
    have ih := stripComments_listLines ht (List.cons_ne_nil e' l)
      fun x hx => hfiles x (List.mem_cons_of_mem e hx)
    have hline : '\n' :: (unlines (listLines ((e :: e' :: l).map fun e => annotate e.1 e.2)) ++ t) =
        "\n  ".toList ++ annotate e.1 e.2 ++ ';' ::
          '\n' :: (unlines (listLines ((e' :: l).map fun e => annotate e.1 e.2)) ++ t) := by
      simp [unlines, listLines]
    have hitems : [';'].intercalate (items (e :: e' :: l)) =
        "\n  ".toList ++ uncommented e.1 e.2 ++ ';' :: [';'].intercalate (items (e' :: l)) := by
      simp only [items, List.map_cons, List.intercalate_cons_cons, List.append_assoc,
        List.singleton_append]
    rw [hline, stripComments_line (hfiles e List.mem_cons_self) (by simp),
      stripComments_cons (by decide), ih, hitems]
    simp

theorem mem_items {l : List (BpfInsn × Option SourceLoc)} {item : Text} (h : item ∈ items l)
    {c : Char} (hc : c ∈ item) : c = '\n' ∨ c = ' ' ∨ isTokenChar c = true := by
  have hspaces : ∀ c ∈ "\n  ".toList, c = '\n' ∨ c = ' ' ∨ isTokenChar c = true := by simp
  obtain ⟨e, -, rfl⟩ := List.mem_map.mp h
  rcases List.mem_append.mp hc with hc | hc
  · exact hspaces c hc
  · cases hloc : e.2 with
    | none =>
      rw [hloc] at hc
      exact Or.inr (e.1.mem_text hc)
    | some loc =>
      rw [hloc] at hc
      rcases List.mem_append.mp hc with hc | hc
      · exact Or.inr (e.1.mem_text hc)
      · exact hspaces c (List.mem_cons_of_mem '\n' hc)

theorem trim_item (e : BpfInsn × Option SourceLoc) {w : Text}
    (hw : ∀ d ∈ w, isWhitespace d = true) :
    trim ("\n  ".toList ++ uncommented e.1 e.2 ++ w) = e.1.text := by
  cases hloc : e.2 with
  | none => exact e.1.trim_text (List.all_eq_true.mp (by decide)) hw
  | some loc =>
    have htwo : ∀ d ∈ "  ".toList, isWhitespace d = true := List.all_eq_true.mp (by decide)
    have hspaces : ∀ d ∈ "  ".toList ++ w, isWhitespace d = true := fun d hd =>
      (List.mem_append.mp hd).elim (htwo d) (hw d)
    have htrim := e.1.trim_text (a := "\n  ".toList) (List.all_eq_true.mp (by decide)) hspaces
    rw [uncommented, List.append_assoc, List.append_assoc, ← List.append_assoc _ e.1.text]
    exact htrim

/-- **The items are read as the instructions they write.** -/
theorem readItems_items {l : List (BpfInsn × Option SourceLoc)} (hne : l ≠ []) :
    readItems ([';'].intercalate (items l) ++ "\n\n".toList) = emit (l.map Prod.fst) := by
  obtain ⟨init, e, rfl⟩ : ∃ init e, l = init ++ [e] :=
    ⟨_, _, (List.dropLast_append_getLast hne).symm⟩
  have hblank : ∀ d ∈ "\n\n".toList, isWhitespace d = true := List.all_eq_true.mp (by decide)
  have hitems : items (init ++ [e]) =
      items init ++ ["\n  ".toList ++ uncommented e.1 e.2] := by simp [items]
  have hparts : ∀ item ∈ items init ++ ["\n  ".toList ++ uncommented e.1 e.2 ++ "\n\n".toList],
      ';' ∉ item := by
    have hword : ∀ item ∈ items (init ++ [e]), ';' ∉ item := fun item h hc =>
      absurd (mem_items h hc) (by decide)
    rw [hitems] at hword
    intro item h
    rcases List.mem_append.mp h with h | h
    · exact hword item (List.mem_append_left _ h)
    · rw [List.mem_singleton.mp h, List.mem_append, not_or]
      exact ⟨hword _ (List.mem_append_right _ List.mem_cons_self), by decide⟩
  have htrims : (items init ++ ["\n  ".toList ++ uncommented e.1 e.2 ++ "\n\n".toList]).map trim =
      (init ++ [e]).map fun x => x.1.text := by
    have hitem (x : BpfInsn × Option SourceLoc) :
        trim ("\n  ".toList ++ uncommented x.1 x.2) = x.1.text := by
      have := trim_item x (w := []) (by simp)
      rwa [List.append_nil] at this
    simp only [items, List.map_append, List.map_map, Function.comp_def, hitem, List.map_cons,
      List.map_nil, trim_item e hblank]
  rw [hitems, ← Text.intercalate_append, readItems, if_neg,
    List.splitOn_intercalate ';' hparts (by simp)]
  · have hread : readInsn ∘ (fun x : BpfInsn × Option SourceLoc => x.1.text) =
        BpfInsn.toFstar ∘ Prod.fst := funext fun x => readInsn_text x.1
    change List.mapM (readInsn ∘ trim) _ = _
    rw [← List.mapM_map (f := trim), htrims, emit, List.mapM_map, List.mapM_map, hread]
  · intro htrim
    have hB : 'B' ∈ "\n  ".toList ++ uncommented e.1 e.2 ++ "\n\n".toList := by
      obtain ⟨u, hu⟩ := e.1.text_eq_append
      cases e.2 <;> simp [uncommented, hu]
    have hspace := Text.trim_eq_nil.mp htrim 'B' (Text.subset_intercalate [';']
      (List.mem_append_right (items init) List.mem_cons_self) hB)
    exact absurd hspace (by decide)

theorem fst_zip (instructions : List BpfInsn) (sourceLocs : List (Option SourceLoc)) :
    (instructions.zip sourceLocs).map Prod.fst = instructions.take sourceLocs.length := by
  induction instructions generalizing sourceLocs with
  | nil => simp
  | cons insn instructions ih =>
    cases sourceLocs with
    | nil => rfl
    | cons loc sourceLocs => simp [ih]

/-- **F\* reads the list as the programme**: the instructions that have a place in the list of
source locations, and none if one of them is no constructor. -/
theorem readProgram_generated (instructions : List BpfInsn)
    (sourceLocs : List (Option SourceLoc)) (rest : Text)
    (hfiles : ∀ loc, some loc ∈ sourceLocs → '*' ∉ loc.file.toList) :
    readProgram (unlines (programLines (annotated instructions sourceLocs)) ++ ']' :: rest) =
      emit (instructions.take sourceLocs.length) := by
  have hzip : annotated instructions sourceLocs =
      (instructions.zip sourceLocs).map fun e => annotate e.1 e.2 :=
    (List.map_uncurry_zip_eq_zipWith (f := annotate)).symm
  have hfiles' : ∀ e ∈ instructions.zip sourceLocs, ∀ loc ∈ e.2, '*' ∉ loc.file.toList :=
    fun e he loc hloc => hfiles loc (hloc ▸ (List.of_mem_zip he).2)
  rw [hzip, ← fst_zip]
  generalize instructions.zip sourceLocs = l at hfiles'
  have htail : stripComments 0 ('\n' :: ']' :: rest) = '\n' :: ']' :: stripComments 0 rest := by
    rw [stripComments_cons (by decide), stripComments_cons (by decide)]
  have hsplit : unlines (programLines (l.map fun e => annotate e.1 e.2)) ++ ']' :: rest =
      "let program : bpf_program = [".toList ++
        '\n' :: (unlines (listLines (l.map fun e => annotate e.1 e.2)) ++ '\n' :: ']' :: rest) := by
    simp [unlines, programLines]
  rw [readProgram, hsplit, stripComments_append (by decide) (by simp), Reader.stripPrefix_append,
    Option.bind_some]
  by_cases hne : l = []
  · subst hne
    have hbody : stripComments 0 ('\n' :: (unlines (listLines []) ++ '\n' :: ']' :: rest)) =
        '\n' :: '\n' :: ']' :: stripComments 0 rest := by
      rw [stripComments_cons (by decide)]
      exact congrArg ('\n' :: ·) htail
    rw [List.map_nil, hbody]
    rfl
  · have hitems : ∀ c ∈ [';'].intercalate (items l) ++ "\n\n".toList, c ≠ ']' := by
      have hnot : ']' ∉ [';'].intercalate (items l) ++ "\n\n".toList := by
        rw [List.mem_append, not_or]
        refine ⟨fun h => ?_, by decide⟩
        rcases Text.mem_intercalate h with hsep | ⟨item, hitem, hc⟩
        · exact absurd hsep (by decide)
        · exact absurd (mem_items hitem hc) (by decide)
      exact fun c hc heq => hnot (heq ▸ hc)
    have hbody : [';'].intercalate (items l) ++ '\n' :: '\n' :: ']' :: stripComments 0 rest =
        ([';'].intercalate (items l) ++ "\n\n".toList) ++ ']' :: stripComments 0 rest := by simp
    rw [stripComments_listLines (by simp) hne hfiles', htail, hbody,
      List.takeWhile_append_of_pos (by simpa using hitems), ← readItems_items hne]
    simp

theorem readProgram_returnZero : readProgram
    (unlines (programLines (annotated [.aluImm .mov .r0 0, .ret] returnZeroLocs)) ++ [']']) =
      emit ([.aluImm .mov .r0 0, .ret].take returnZeroLocs.length) := by
  refine readProgram_generated _ returnZeroLocs [] fun loc h => ?_
  obtain rfl : loc = ⟨"test.bpf.c", "/src/test.bpf.c", 3⟩ := by simpa [returnZeroLocs] using h
  decide +kernel

end BpfVerifier
