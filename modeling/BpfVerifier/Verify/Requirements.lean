import BpfVerifier.Elf.Structs
import BpfVerifier.Machinery.Buckets
import BpfVerifier.Verify.Conjuncts

/-!
# Verify/Requirements — the note on what a postcondition requires

The conjuncts read from F* output get the names of struct fields (`with_struct_fields`), those that
say nothing are left out, and `Diagnostic::format` lists the others by disjunct.
-/

namespace BpfVerifier

open Text (find before contains)

/-- The proof stage that failed. -/
inductive FailedStage where
  | stackBounds
  | typeSafety
  | nullSafety
  | functionalCorrectness
  deriving DecidableEq, Repr

/-! ## Names of struct fields -/

/-- The loop of `str::replace`, with characters of an occurrence still to pass. -/
def replaceFrom (p q : Text) : ℕ → Text → Text
  | _, [] => []
  | skip + 1, _ :: s => replaceFrom p q skip s
  | 0, c :: s =>
    if p.isPrefixOf (c :: s) then q ++ replaceFrom p q (p.length - 1) s
    else c :: replaceFrom p q 0 s

/-- `str::replace` of a pattern that is not empty. -/
def replace (p q s : Text) : Text := replaceFrom p q 0 s

/-- The width of a field, if it has an accessor. -/
def fieldWidth (byteSize : ℕ) : Option Text :=
  match byteSize with
  | 1 => some "W8".toList
  | 2 => some "W16".toList
  | 4 => some "W32".toList
  | 8 => some "W64".toList
  | _ => none

/-- How a field is read from the ring buffer. -/
def readText (offset : ℕ) (width : Text) : Text :=
  "ringbuf_read_any rb ".toList ++ (toString offset).toList ++ ' ' :: width

/-- The accessor of a field. -/
def accessorText (struct field : String) : Text :=
  struct.toList ++ '_' :: field.toList ++ " rb".toList

/-- The replacement for a field. -/
def fieldReplacement (s : Elf.StructDef) (f : Elf.StructField) : Option (Text × Text) :=
  (fieldWidth f.byteSize).map fun width => (readText f.offset width, accessorText s.name f.name)

/-- `replacements` of `with_struct_fields`. -/
def fieldReplacements (structs : List Elf.StructDef) : List (Text × Text) :=
  (structs.filter fun s => s.isUserDefined).flatMap fun s => s.fields.filterMap (fieldReplacement s)

/-- One replacement, where there is something to replace. -/
def applyReplacement (text : Text) (r : Text × Text) : Text :=
  if contains r.1 text then replace r.1 r.2 text else text

/-- A text of a conjunct after `with_struct_fields`. -/
def nameFields (structs : List Elf.StructDef) (text : Text) : Text :=
  (fieldReplacements structs).foldl applyReplacement text

/-- `with_struct_fields`, on the conjuncts. -/
def withStructFields (structs : List Elf.StructDef) (conjuncts : List ConjunctInfo) :
    List ConjunctInfo :=
  conjuncts.map fun c => { c with text := nameFields structs c.text }

/-! ## The note -/

/-- `is_trivially_true`: both sides of the first ` == ` are the same. -/
def isTriviallyTrue (text : Text) : Bool :=
  match before " == ".toList text with
  | some lhs => lhs = text.drop (lhs.length + " == ".toList.length)
  | none => false

/-- `group_by_disjunct`. -/
def groupByDisjunct (conjuncts : List ConjunctInfo) : List (List ConjunctInfo) :=
  Buckets.file ConjunctInfo.disjunct conjuncts

/-- The items of a group, each on a line. -/
def itemLines (bullet : Text) (texts : List Text) : Text :=
  ['\n'].intercalate (texts.map (bullet ++ ·))

/-- `label`. -/
def pathLabel (i : ℕ) : Text :=
  if i = 0 then "success path".toList else "path ".toList ++ (toString i).toList

/-- What a note lists of some groups. -/
def requirements (groups : List (List Text)) : Text :=
  match groups with
  | [group] => "postcondition requires all of:\n".toList ++ itemLines "  - ".toList group
  | groups =>
    "postcondition requires (one of):\n".toList ++
      ['\n'].intercalate (groups.zipIdx.map fun e =>
        "  ".toList ++ pathLabel e.2 ++ ":\n".toList ++ itemLines "    - ".toList e.1)

/-- **The conjunct note of `Diagnostic::format`.** -/
def conjunctNote (stage : FailedStage) (conjuncts : List ConjunctInfo) : Option Text :=
  let nontrivial := conjuncts.filter fun c => !isTriviallyTrue c.text
  if nontrivial ≠ [] ∧ stage = .functionalCorrectness then
    some (requirements ((groupByDisjunct nontrivial).map (List.map ConjunctInfo.text)))
  else none

example : conjunctNote .functionalCorrectness
    [⟨0, "1uL == 0uL".toList⟩, ⟨0, "7uL == 7uL".toList⟩, ⟨1, "1uL == 5uL".toList⟩] =
      some ("postcondition requires (one of):\n  success path:\n    - 1uL == 0uL\n".toList ++
        "  path 1:\n    - 1uL == 5uL".toList) := by decide +kernel

end BpfVerifier
