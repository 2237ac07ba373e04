import BpfVerifier.Machinery.AssocMap

/-!
# Elf/Structs — `extract_structs`

What the debug information says is given, unit by unit (`Entry`).  The first pass enters the sizes
and the type references of all units into two maps; the second goes through each unit's entries once
more and collects the members of its structures.  `scan` collects them as whatever `field` makes of
a member; `extractStructs` is the instance that looks the sizes up in the maps.
-/

namespace BpfVerifier.Elf

/-- What the parser tells apart of a tag. -/
inductive Tag where
  | structureType
  | member
  | other
  deriving DecidableEq, Repr

/-- A debugging information entry; offsets are relative to its unit. -/
structure Entry where
  offset : ℕ
  tag : Tag
  byteSize : Option ℕ
  /-- The target of `DW_AT_type`, if it lies in the same unit. -/
  typeRef : Option ℕ
  name : Option String
  /-- The index in `DW_AT_decl_file`. -/
  declFile : Option ℕ
  dataMemberLocation : Option ℕ
  deriving DecidableEq, Repr

structure StructField where
  name : String
  offset : ℕ
  byteSize : ℕ
  deriving DecidableEq, Repr

/-- A `StructDef` with fields of any kind. -/
structure Struct (φ : Type) where
  name : String
  isUserDefined : Bool
  fields : List φ
  deriving DecidableEq, Repr

abbrev StructDef := Struct StructField

/-! ## Sizes -/

/-- `type_sizes` and `type_refs`. -/
structure TypeMaps where
  sizes : AssocMap ℕ ℕ
  refs : AssocMap ℕ ℕ

namespace TypeMaps

def empty : TypeMaps := ⟨.empty, .empty⟩

/-- One entry of the first pass. -/
def enter (maps : TypeMaps) (entry : Entry) : TypeMaps :=
  { sizes := match entry.byteSize with
      | some sz => maps.sizes.insert entry.offset sz
      | none => maps.sizes
    refs := match entry.typeRef with
      | some target => maps.refs.insert entry.offset target
      | none => maps.refs }

/-- The first pass. -/
def ofUnits (units : List (List Entry)) : TypeMaps :=
  units.foldl (fun maps unit => unit.foldl enter maps) empty

/-- `for _ in 0..10`: the size of the type at an offset, following type references. -/
def chase (maps : TypeMaps) : ℕ → ℕ → Option ℕ
  | 0, _ => none
  | depth + 1, cur =>
    match maps.sizes.get cur with
    | some sz => some sz
    | none =>
      match maps.refs.get cur with
      | some next => chase maps depth next
      | none => none

/-- The size of a member's type. -/
def byteSize (maps : TypeMaps) (entry : Entry) : Option ℕ := entry.typeRef.bind (maps.chase 10)

/-- The field of a member: named, placed, and of a size that has an accessor. -/
def field (maps : TypeMaps) (entry : Entry) : Option StructField :=
  match entry.name, entry.dataMemberLocation, maps.byteSize entry with
  | some name, some offset, some size =>
    if size = 1 ∨ size = 2 ∨ size = 4 ∨ size = 8 then some ⟨name, offset, size⟩ else none
  | _, _, _ => none

end TypeMaps

/-! ## Structures -/

/-- The variables of the second pass. -/
structure Scanning (φ : Type) where
  result : List (Struct φ)
  currentStruct : Option (String × Bool)
  currentFields : List φ

namespace Scanning

variable {φ : Type} (s : Scanning φ)

/-- Take the current structure, and push it if it has fields. -/
def close : Scanning φ :=
  match s.currentStruct with
  | none => s
  | some (name, isUser) =>
    if s.currentFields = [] then { s with currentStruct := none }
    else ⟨s.result ++ [⟨name, isUser, s.currentFields⟩], none, []⟩

/-- One entry of the second pass. -/
def step (field : Entry → Option φ) (entry : Entry) : Scanning φ :=
  match entry.tag with
  | .structureType =>
    { s.close with
      currentStruct := entry.name.map fun name => (name, decide (entry.declFile = some 0))
      currentFields := [] }
  | .member =>
    match s.currentStruct with
    | none => s
    | some (name, isUser) =>
      { s with
        currentStruct := some (name, isUser || decide (entry.declFile = some 0))
        currentFields := s.currentFields ++ (field entry).toList }
  | .other => if s.currentStruct.isSome then s.close else s

/-- The entries of one unit, after what the units before it gave. -/
def unit (field : Entry → Option φ) (result : List (Struct φ)) (entries : List Entry) :
    List (Struct φ) :=
  (entries.foldl (fun s => step s field) ⟨result, none, []⟩).close.result

end Scanning

/-- The second pass, with a `field` for each unit. -/
def scan {φ : Type} (field : List Entry → Entry → Option φ) (units : List (List Entry)) :
    List (Struct φ) :=
  units.foldl (fun result entries => Scanning.unit (field entries) result entries) []

/-- **`extract_structs`**. -/
def extractStructs (units : List (List Entry)) : List StructDef :=
  scan (fun _ => (TypeMaps.ofUnits units).field) units

end BpfVerifier.Elf
