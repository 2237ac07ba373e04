import BpfVerifier.Codegen.InsnText
import BpfVerifier.Kverify.Error

/-!
# Codegen/Listing — the programme in the generated module

`generate_fstar` writes the instructions as a list, a line for each with the source line it comes
from in a comment.  `readProgram` reads the list as F\* does, comments apart;
`extractInstructionAtPc` is the diagnostics' way back from a pc to the line.  A panic of a string
slice is `none`.
-/

namespace BpfVerifier

open Fstar (BpfProgram)
open Text (find rfindText trimEndMatches unlines)

/-! ## What is generated -/

/-- `{}:{}`. -/
def SourceLoc.text (loc : SourceLoc) : Text :=
  loc.file.toList ++ ':' :: (toString loc.line.toNat).toList

/-- An entry of `annotated`. -/
def annotate (insn : BpfInsn) : Option SourceLoc → Text
  | some loc => insn.text ++ "  (* ".toList ++ loc.text ++ " *)".toList
  | none => insn.text

def annotated (instructions : List BpfInsn) (sourceLocs : List (Option SourceLoc)) : List Text :=
  List.zipWith annotate instructions sourceLocs

/-- A line of the list, with a semicolon if it is not the last. -/
def listLines : List Text → List Text
  | [] => []
  | [entry] => ["  ".toList ++ entry]
  | entry :: rest => ("  ".toList ++ entry ++ [';']) :: listLines rest

/-- The template as far as the programme. -/
def headerLines (programName specModule : Text) : List Text :=
  ["(* Generated by bpf-verifier. Do not edit.",
    "",
    "   Verification is layered:",
    "     1. Stack bounds  — Rust-computed witness, F*-validated per instruction",
    "     2. Type safety   — abstract interpretation proved by normalisation",
    "     3. Null safety   — branch-aware analysis proved by normalisation (if needed)",
    "     4. Correctness   — the programme satisfies the user's spec",
    "",
    "   Correctness proof strategy (chosen by Rust based on programme structure):",
    "     - Path-based: nullable helpers (map_lookup, ringbuf_reserve) create",
    "       multiple execution paths. Each path is proved independently via",
    "       deterministic normalisation, then combined via path_sound.",
    "     - Chunked: large straight-line programmes are normalised block-by-block",
    "       to keep term sizes manageable.",
    "     - Direct: small deterministic programmes use full normalisation in one step.",
    "*)"].map String.toList ++
  ["module Verify_".toList ++ programName] ++
  ["",
    "open FStar.Tactics.V2",
    "open BPF.State",
    "open BPF.Semantics",
    "open BPF.Helpers",
    "open BPF.Spec",
    "open BPF.Verify",
    "open BPF.Tactic",
    "open BPF.Check.StackBounds",
    "open BPF.Check.TypeSafety",
    "open BPF.Check.NullSafety",
    "open BPF.Tactic.Layered"].map String.toList ++
  ["open ".toList ++ specModule, []]

/-- The declaration of the programme, up to the bracket that closes the list. -/
def programLines (entries : List Text) : List Text :=
  ["let program : bpf_program = [".toList] ++ listLines entries ++ [[]]

/-- The generated module, with what the template writes after the list. -/
def generatedText (programName specModule : Text) (instructions : List BpfInsn)
    (sourceLocs : List (Option SourceLoc)) (rest : Text) : Text :=
  unlines (headerLines programName specModule ++
    programLines (annotated instructions sourceLocs)) ++ ']' :: rest

/-! ## The list as F\* reads it -/

/-- A text without its comments, which nest. -/
def stripComments : ℕ → Text → Text
  | _, [] => []
  | depth, '(' :: '*' :: s => stripComments (depth + 1) s
  | depth + 1, '*' :: ')' :: s => stripComments depth s
  | 0, c :: s => c :: stripComments 0 s
  | depth + 1, _ :: s => stripComments (depth + 1) s

/-- The items of a list, with semicolons between them. -/
def readItems (body : Text) : Option BpfProgram :=
  if body.trim = [] then some [] else (body.splitOn ';').mapM fun item => readInsn (Text.trim item)

/-- The programme a declaration starts. -/
def readProgram (s : Text) : Option BpfProgram :=
  (Text.stripPrefix "let program : bpf_program = [".toList (stripComments 0 s)).bind fun s =>
    readItems (s.takeWhile (· ≠ ']'))

/-! ## From a pc to its line -/

/-- An instruction from the generated source with its pc and source location. -/
structure InstructionInfo where
  pc : ℕ
  instruction : Text
  sourceLoc : Option Text
  deriving DecidableEq, Repr

/-- What `extract_instruction_at_pc` takes off a trimmed line. -/
def instructionInfo (pc : ℕ) (trimmed : Text) : Option InstructionInfo :=
  let plain : InstructionInfo := ⟨pc, (trimEndMatches ';' trimmed).trim, none⟩
  match find "(* ".toList trimmed, rfindText " *)".toList trimmed with
  | some start, some stop =>
    if start < stop then do
      let insn ← trimmed.sliceTo start
      let loc ← trimmed.slice (start + 3) stop
      return ⟨pc, (trimEndMatches ';' insn.trim).trim, some loc.trim⟩
    else some plain
  | _, _ => some plain

/-- The loop of `extract_instruction_at_pc`, at a count of instruction lines. -/
def instructionAt (pc : ℕ) : ℕ → List Text → Option (Option InstructionInfo)
  | _, [] => some none
  | currentPc, line :: lines =>
    if "BPF_".toList.isPrefixOf line.trim then
      if currentPc = pc then (instructionInfo pc line.trim).map some
      else instructionAt pc (currentPc + 1) lines
    else instructionAt pc currentPc lines

/-- `extract_instruction_at_pc`. -/
def extractInstructionAtPc (source : Text) (pc : ℕ) : Option (Option InstructionInfo) :=
  instructionAt pc 0 source.lines

end BpfVerifier
