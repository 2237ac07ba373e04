import BpfVerifier.Fstar.Diagnose
import BpfVerifier.Machinery.Words
import BpfVerifier.Verify.Requirements

/-!
# Properties/Diagnosis — what a report says a postcondition requires

The tactics print the conjuncts of a goal's postcondition between whatever else F* prints, and the
report is made from the printed text alone.  It lists what the goals require, disjunct by disjunct
(`conjunctNote_output`): the conjuncts that say something, with the disjuncts at the end that none
is left of not counted.
-/

namespace BpfVerifier

open Fstar (GoalTerm conjunctText diagnoseConjuncts disjuncts extractPost)
open Text (dropCr unlines)

/-! ## Reading the lines -/

theorem parseUsize_toString {n : ℕ} (h : n < 2 ^ 64) :
    Text.parseUsize (toString n).toList = some n := by
  have htext : (toString n).toList = Nat.toDigits 10 n := Nat.toList_repr
  have hdigits : ∀ c ∈ Nat.toDigits 10 n, c.isDigit = true := fun c hc =>
    Nat.isDigit_of_mem_toDigits (by decide) (by decide) hc
  have hvalue : (Nat.toDigits 10 n).foldl (fun n c => n * 10 + (c.toNat - '0'.toNat)) 0 = n := by
    simp only [Nat.mul_comm _ 10]
    exact Nat.ofDigitChars_ten_toDigits
  have hplus (rest : Text) : Nat.toDigits 10 n ≠ '+' :: rest := fun h =>
    absurd (hdigits '+' (h ▸ List.mem_cons_self)) (by decide)
  rw [htext, Text.parseUsize.eq_def]
  split
  · next rest hrest => exact absurd hrest (hplus rest)
  · simp only [hvalue]
    exact if_pos ⟨Nat.toDigits_ne_nil, List.all_eq_true.mpr hdigits, h⟩

theorem splitOnce_append {sep : Char} {a : Text} (h : sep ∉ a) (b : Text) :
    Text.splitOnce sep (a ++ sep :: b) = some (a, b) := by
  induction a with
  | nil => exact if_pos rfl
  | cons c a ih =>
    obtain ⟨hc, ha⟩ := not_or.mp (mt List.mem_cons.mpr h)
    rw [List.cons_append, Text.splitOnce, if_neg (Ne.symm hc), ih ha]
    rfl

/-- A number has no character that is no digit. -/
theorem not_mem_toString {c : Char} (hc : c.isDigit = false) (n : ℕ) : c ∉ (toString n).toList := by
  have htext : (toString n).toList = Nat.toDigits 10 n := Nat.toList_repr
  intro hmem
  rw [htext] at hmem
  have hdigit := Nat.isDigit_of_mem_toDigits (by decide) (by decide) hmem
  exact absurd hdigit (by simp [hc])

/-- **A line for a conjunct is read back**, but for a carriage return at its end. -/
theorem conjunctLine_conjunctText {idx : ℕ} (hidx : idx < 2 ^ 64) (c : Text) :
    conjunctLine (dropCr (conjunctText idx c)) = some (idx, dropCr c) := by
  have hlast : ("TAC>> CONJUNCT|".toList ++ (toString idx).toList ++ ['|']).getLast? ≠
      some '\r' := by
    rw [List.getLast?_concat]
    decide
  have hbar (s : Text) : conjunctText idx s =
      "TAC>> CONJUNCT|".toList ++ (toString idx).toList ++ ['|'] ++ s := List.append_cons _ _ _
  have hdrop : dropCr (conjunctText idx c) = conjunctText idx (dropCr c) := by
    rw [hbar, hbar, Text.dropCr_append hlast]
  have hassoc : conjunctText idx (dropCr c) =
      "TAC>> CONJUNCT|".toList ++ ((toString idx).toList ++ '|' :: dropCr c) :=
    List.append_assoc _ _ _
  have hstrip := (congrArg (Text.stripPrefix _) hassoc).trans (Reader.stripPrefix_append _ _)
  have hsplit := splitOnce_append (not_mem_toString (c := '|') (by decide) idx) (dropCr c)
  simp only [conjunctLine, hdrop, hstrip, Option.some_or, Option.bind_eq_bind, Option.bind_some,
    hsplit, parseUsize_toString hidx, Option.pure_def]

/-- What is read of some lines, where no conjunct is one that simplifying panics on. -/
theorem conjunctsOf_eq {ls : List Text}
    (h : ∀ e ∈ ls.filterMap conjunctLine, (simplifyConjunct e.2).isSome) :
    conjunctsOf ls = some ((ls.filterMap conjunctLine).map fun e =>
      ⟨e.1, (simplifyConjunct e.2).getD []⟩) := by
  induction ls with
  | nil => rfl
  | cons line rest ih =>
    rw [conjunctsOf]
    cases hline : conjunctLine line with
    | none =>
      rw [List.filterMap_cons_none hline] at h ⊢
      exact ih h
    | some e =>
      rw [List.filterMap_cons_some hline] at h ⊢
      obtain ⟨htext, hrest⟩ := List.forall_mem_cons.mp h
      obtain ⟨text, htext⟩ := Option.isSome_iff_exists.mp htext
      simp [htext, ih hrest]

/-! ## What F* prints -/

/-- A part of F*'s output: a line, or what the tactics print for a goal. -/
inductive Printed where
  | other (line : Text)
  | goal (t : GoalTerm)

namespace Printed

variable (print : GoalTerm → Text)

def lines : Printed → List Text
  | other line => [line]
  | goal t => diagnoseConjuncts print t

/-- The disjuncts that are printed. -/
def table : Printed → List (List Text)
  | other _ => []
  | goal t => disjuncts print (extractPost t)

end Printed

/-- The output, with finished lines. -/
def output (print : GoalTerm → Text) (parts : List Printed) : Text :=
  unlines (parts.flatMap (Printed.lines print))

section

variable {print : GoalTerm → Text} {parts : List Printed} {rest : Text}

/-- A conjunct stands on one line. -/
theorem newline_mem_disjuncts {f : GoalTerm} :
    ∀ d ∈ disjuncts print f, ∀ c ∈ d, '\n' ∉ c := by
  have hconjuncts (f : GoalTerm) : ∀ c ∈ Fstar.collectConjuncts print f, '\n' ∉ c := by
    induction f with
    | and l r ihl ihr => exact List.forall_mem_append.mpr ⟨ihl, ihr⟩
    | _ => exact List.forall_mem_singleton.mpr (Fstar.newline_mem_flattenString _)
  induction f with
  | or l r ihl ihr => exact List.forall_mem_append.mpr ⟨ihl, ihr⟩
  | _ => exact List.forall_mem_singleton.mpr (hconjuncts _)

theorem newline_mem_conjunctText (idx : ℕ) {c : Text} (h : '\n' ∉ c) :
    '\n' ∉ conjunctText idx c := by
  have hpre : '\n' ∉ "TAC>> CONJUNCT|".toList := by decide +kernel
  rintro hmem
  rcases List.mem_append.mp hmem with hmem | hmem
  · exact (List.mem_append.mp hmem).elim hpre (not_mem_toString (by decide) idx)
  · exact (List.mem_cons.mp hmem).elim (by decide) h

theorem newline_mem_lines {part : Printed} (hother : ∀ line, part = .other line → '\n' ∉ line) :
    ∀ line ∈ part.lines print, '\n' ∉ line := by
  cases part with
  | other line => exact List.forall_mem_singleton.mpr (hother line rfl)
  | goal t =>
    rw [Printed.lines, Fstar.diagnoseConjuncts_eq]
    intro line hline
    obtain ⟨e, he, htext⟩ := List.mem_map.mp hline
    obtain ⟨-, d, hd, hc⟩ := Buckets.mem_entries he
    rw [← htext]
    exact newline_mem_conjunctText e.1 (newline_mem_disjuncts d hd _ hc)

/-- **What is read of a part of the output**: its disjuncts. -/
theorem filterMap_lines {part : Printed}
    (hother : ∀ line, part = .other line → conjunctLine (dropCr line) = none)
    (hcount : (part.table print).length ≤ 2 ^ 64) :
    ((part.lines print).map dropCr).filterMap conjunctLine =
      Buckets.entries 0 ((part.table print).map (List.map dropCr)) := by
  cases part with
  | other line => simp [Printed.lines, Printed.table, Buckets.entries, hother line rfl]
  | goal t =>
    rw [Buckets.entries_map, Printed.lines, Fstar.diagnoseConjuncts_eq, List.map_map,
      List.filterMap_map]
    refine List.filterMap_eq_map_iff_forall_eq_some.mpr fun e he => ?_
    have hlt := (Buckets.mem_entries he).1
    rw [Nat.zero_add] at hlt
    exact conjunctLine_conjunctText (Nat.lt_of_lt_of_le hlt hcount) e.2

/-! ## The note -/

/-- The text a conjunct is shown as. -/
def shownConjunct (structs : List Elf.StructDef) (c : Text) : Text :=
  nameFields structs ((simplifyConjunct (dropCr c)).getD [])

/-- The disjuncts of the goals, as they are shown. -/
def shownTables (print : GoalTerm → Text) (structs : List Elf.StructDef) (parts : List Printed) :
    List (List (List Text)) :=
  parts.map fun part => (part.table print).map (List.map (shownConjunct structs))

/-- **What the goals require**, disjunct by disjunct: the conjuncts that say something. -/
def required (print : GoalTerm → Text) (structs : List Elf.StructDef) (parts : List Printed) :
    List (List Text) :=
  Buckets.dropEmpty ((Buckets.columns (shownTables print structs parts)).map
    (List.filter fun c => !isTriviallyTrue c))

/-- What is read of an output, and shown. -/
theorem withStructFields_output (structs : List Elf.StructDef)
    (hother : ∀ line, .other line ∈ parts → '\n' ∉ line ∧ conjunctLine (dropCr line) = none)
    (hrest : ∀ line ∈ rest.lines, conjunctLine line = none)
    (hcount : ∀ part ∈ parts, (part.table print).length ≤ 2 ^ 64)
    (hshown : ∀ part ∈ parts, ∀ d ∈ part.table print, ∀ c ∈ d,
      (simplifyConjunct (dropCr c)).isSome) :
    (parseConjuncts (output print parts ++ rest)).map (withStructFields structs) =
      some (((shownTables print structs parts).flatMap (Buckets.entries 0)).map fun e =>
        ⟨e.1, e.2⟩) := by
  have hlines : ∀ line ∈ parts.flatMap (Printed.lines print), '\n' ∉ line := by
    intro line hline
    obtain ⟨part, hpart, hmem⟩ := List.mem_flatMap.mp hline
    exact newline_mem_lines (fun l hl => (hother l (hl ▸ hpart)).1) line hmem
  have hnone : rest.lines.filterMap conjunctLine = [] := List.filterMap_eq_nil_iff.mpr hrest
  have hread : (output print parts ++ rest).lines.filterMap conjunctLine =
      parts.flatMap fun part => Buckets.entries 0 ((part.table print).map (List.map dropCr)) := by
    rw [output, Text.lines_unlines hlines, List.filterMap_append, hnone, List.append_nil,
      List.map_flatMap, List.filterMap_flatMap]
    exact List.flatMap_congr fun part hpart =>
      filterMap_lines (fun l hl => (hother l (hl ▸ hpart)).2) (hcount part hpart)
  have hsome : ∀ e ∈ (output print parts ++ rest).lines.filterMap conjunctLine,
      (simplifyConjunct e.2).isSome := by
    rw [hread]
    intro e he
    obtain ⟨part, hpart, he⟩ := List.mem_flatMap.mp he
    rw [Buckets.entries_map] at he
    obtain ⟨e', he', rfl⟩ := List.mem_map.mp he
    obtain ⟨-, d, hd, hc⟩ := Buckets.mem_entries he'
    exact hshown part hpart d hd _ hc
  rw [parseConjuncts, conjunctsOf_eq hsome, hread, Option.map_some, withStructFields, List.map_map]
  simp only [shownTables, List.flatMap_map, Buckets.entries_map, List.map_flatMap, List.map_map]
  rfl

/-- **The report lists what the goals require**: the note made from F*'s output lists each disjunct
of the postconditions the goals were diagnosed for, in order, with the conjuncts of it that say
something, whatever else is printed between. -/
theorem conjunctNote_output (structs : List Elf.StructDef)
    (hother : ∀ line, .other line ∈ parts → '\n' ∉ line ∧ conjunctLine (dropCr line) = none)
    (hrest : ∀ line ∈ rest.lines, conjunctLine line = none)
    (hcount : ∀ part ∈ parts, (part.table print).length ≤ 2 ^ 64)
    (hshown : ∀ part ∈ parts, ∀ d ∈ part.table print, ∀ c ∈ d,
      (simplifyConjunct (dropCr c)).isSome) :
    (parseConjuncts (output print parts ++ rest)).map (fun conjuncts =>
        conjunctNote .functionalCorrectness (withStructFields structs conjuncts)) =
      some (if required print structs parts = [] then none
        else some (requirements (required print structs parts))) := by
  have hread := withStructFields_output structs hother hrest hcount hshown
  obtain ⟨conjuncts, hparse, hshow⟩ := Option.map_eq_some_iff.mp hread
  have hgroups : (groupByDisjunct ((withStructFields structs conjuncts).filter fun c =>
      !isTriviallyTrue c.text)).map (List.map ConjunctInfo.text) =
        required print structs parts := by
    have htext : (List.map ConjunctInfo.text ∘ List.map fun e : ℕ × Text =>
        (⟨e.1, e.2⟩ : ConjunctInfo)) = List.map Prod.snd := funext fun l => List.map_map
    rw [hshow, List.filter_map, groupByDisjunct, Buckets.map_file, List.map_map, htext]
    exact Buckets.file_entries (fun c => !isTriviallyTrue c) (shownTables print structs parts)
  rw [hparse, Option.map_some, conjunctNote, hgroups]
  refine congrArg some ?_
  have hnil : required print structs parts = [] ↔ (withStructFields structs conjuncts).filter
      (fun c => !isTriviallyTrue c.text) = [] := by
    rw [← hgroups, List.map_eq_nil_iff, groupByDisjunct, Buckets.file_eq_nil]
  by_cases h : required print structs parts = []
  · rw [if_pos h, if_neg (fun hand => hand.1 (hnil.mp h))]
  · rw [if_neg h, if_pos ⟨fun hfilter => h (hnil.mpr hfilter), rfl⟩]

/-- The goal of `r0 == 0 /\\ count == 2 \\/ r0 == 1`. -/
def twoWays : GoalTerm :=
  .all (.abs (.implies (.other "l_True".toList)
    (.or (.and (.other "Eq (int) (r0) (0)".toList) (.other "Eq (int) (count) (2)".toList))
      (.other "Eq (int) (r0) (1)".toList))))

/-- A formula that is printed as its text. -/
def ownText : GoalTerm → Text
  | .other text => text
  | _ => []

theorem table_twoWays : (Printed.goal twoWays).table ownText =
    [["Eq (int) (r0) (0)".toList, "Eq (int) (count) (2)".toList],
      ["Eq (int) (r0) (1)".toList]] := by
  simp only [Printed.table, twoWays, extractPost, Fstar.extractPostTerm]
  decide +kernel

theorem conjunctNote_output_twoWays :
    (parseConjuncts (output ownText [.other "Goal 1/1".toList, .goal twoWays])).map
      (fun conjuncts => conjunctNote .functionalCorrectness (withStructFields [] conjuncts)) =
        some (some ("postcondition requires (one of):\n  success path:\n    - r0 == 0\n".toList ++
          "    - count == 2\n  path 1:\n    - r0 == 1".toList)) := by
  have hother : ∀ line, .other line ∈ [Printed.other "Goal 1/1".toList, .goal twoWays] →
      '\n' ∉ line ∧ conjunctLine (dropCr line) = none := by
    intro line hline
    obtain rfl : line = "Goal 1/1".toList := by simpa using hline
    exact ⟨by decide, by decide +kernel⟩
  have htables : [Printed.other "Goal 1/1".toList, .goal twoWays].map (Printed.table ownText) =
      [[], [["Eq (int) (r0) (0)".toList, "Eq (int) (count) (2)".toList],
        ["Eq (int) (r0) (1)".toList]]] := by
    rw [List.map_cons, List.map_singleton, table_twoWays]
    rfl
  have hall (P : List (List Text) → Prop) (h : ∀ table ∈ [[],
      [["Eq (int) (r0) (0)".toList, "Eq (int) (count) (2)".toList],
        ["Eq (int) (r0) (1)".toList]]], P table) :
      ∀ part ∈ [Printed.other "Goal 1/1".toList, .goal twoWays], P (part.table ownText) :=
    fun part hpart => h _ (htables ▸ List.mem_map_of_mem hpart)
  have hrest : ∀ line ∈ Text.lines [], conjunctLine line = none := by
    simp [Text.lines, Text.splitLines]
  have hnote := conjunctNote_output [] hother hrest
    (hall (fun table => table.length ≤ 2 ^ 64) (by decide))
    (hall (fun table => ∀ d ∈ table, ∀ c ∈ d, (simplifyConjunct (dropCr c)).isSome)
      (by decide +kernel))
  rw [List.append_nil] at hnote
  have hshow : shownTables ownText [] [Printed.other "Goal 1/1".toList, .goal twoWays] =
      ([Printed.other "Goal 1/1".toList, .goal twoWays].map (Printed.table ownText)).map
        (List.map (List.map (shownConjunct []))) := List.map_map.symm
  rw [hnote, required, hshow, htables]
  decide +kernel

end

end BpfVerifier
