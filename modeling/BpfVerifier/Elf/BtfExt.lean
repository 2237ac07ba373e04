import BpfVerifier.Elf.Parser
import BpfVerifier.Machinery.Checked

/-!
# Elf/BtfExt — `parse_btf_ext_core_relos`

The reader of the CO-RE relocations in `.BTF.ext`, with every addition, product and slice checked:
`none` is a panic.  The headers come first (`readTable`), then one pass over the section headers
(`readSections`) with an inner loop over the records of each (`readRecords`).
-/

namespace BpfVerifier.Elf

open Checked

/-- The byte offsets relocated in each section, as sets. -/
abbrev CoreRelos := AssocMap String (List (BitVec 32))

/-- The relocation table the headers describe. -/
structure Table where
  strtab : List (BitVec 8)
  ext : List (BitVec 8)
  recSize : ℕ
  /-- Where the first section header stands. -/
  start : ℕ
  stop : ℕ

/-- `std::str::from_utf8`. -/
def fromUtf8 (bytes : List (BitVec 8)) : Option String :=
  String.fromUTF8? ⟨(bytes.map UInt8.ofBitVec).toArray⟩

/-- `btf_str`: the string at an offset of the string table, up to its first zero byte. -/
def btfStr (strtab : List (BitVec 8)) (off : BitVec 32) : Option String := do
  let start := off.toNat
  if start ≥ strtab.length then
    return ""
  let tail ← slice strtab start strtab.length
  let stop ← match tail.findIdx? (· = 0) with
    | some p => add start p
    | none => some strtab.length
  let bytes ← slice strtab start stop
  return (fromUtf8 bytes).getD ""

/-- The headers of `.BTF` and `.BTF.ext`; the inner `none` is an early return. -/
def readTable (btf ext : List (BitVec 8)) : Option (Option Table) := do
  if btf.length < 24 then
    return none
  let btfHdrLen := (← u32At btf 4 8).toNat
  let btfStrOff := (← u32At btf 16 20).toNat
  let btfStrLen := (← u32At btf 20 24).toNat
  let strStart ← add btfHdrLen btfStrOff
  let strStop ← add strStart btfStrLen
  if strStop > btf.length then
    return none
  let strtab ← slice btf strStart strStop
  if ext.length < 32 then
    return none
  let extHdrLen := (← u32At ext 4 8).toNat
  -- no CO-RE relo section in this BTF.ext version
  if extHdrLen < 32 then
    return none
  let coreReloOff := (← u32At ext 24 28).toNat
  let coreReloLen := (← u32At ext 28 32).toNat
  if coreReloLen = 0 then
    return none
  let reloStart ← add extHdrLen coreReloOff
  let stop ← add reloStart coreReloLen
  if stop > ext.length ∨ coreReloLen < 4 then
    return none
  let start ← add reloStart 4
  let recSize := (← u32At ext reloStart start).toNat
  if recSize < 16 then
    return none
  return some ⟨strtab, ext, recSize, start, stop⟩

/-- `for i in 0..num_info`, for the records still to come. -/
def readRecords (t : Table) (pos : ℕ) : ℕ → ℕ → List (BitVec 32) → Option (List (BitVec 32))
  | 0, _, set => some set
  | remaining + 1, i, set => do
    let recPos ← add pos (← mul i t.recSize)
    let recStop ← add recPos 16
    if recStop > t.stop then
      return set
    let insnOff ← u32At t.ext recPos (← add recPos 4)
    let kind ← u32At t.ext (← add recPos 12) recStop
    -- FIELD_BYTE_OFFSET = 0
    readRecords t pos remaining (i + 1) (if kind = 0 then set.insert insnOff else set)

/-- A section header whose eight bytes end at a position, and its records: the map with them, and
where the next header stands. -/
def readSection (t : Table) (pos next : ℕ) (result : CoreRelos) : Option (ℕ × CoreRelos) := do
  let secNameOff ← u32At t.ext pos (← add pos 4)
  let numInfo := (← u32At t.ext (← add pos 4) next).toNat
  let secName ← btfStr t.strtab secNameOff
  let set ← readRecords t next numInfo 0 ((result.get secName).getD [])
  let after ← add next (← mul numInfo t.recSize)
  return (after, result.insert secName set)

theorem le_of_readSection {t : Table} {pos next after : ℕ} {result result' : CoreRelos}
    (h : readSection t pos next result = some (after, result')) : next ≤ after := by
  simp only [readSection, Option.bind_eq_bind, Option.bind_eq_some_iff] at h
  obtain ⟨_, _, _, _, _, _, _, _, _, _, _, _, size, _, stop, hstop, heq⟩ := h
  obtain ⟨rfl, -⟩ := Prod.mk.inj (Option.some.inj heq)
  have := eq_of_add hstop
  omega

/-- `while pos + 8 <= end`. -/
def readSections (t : Table) (pos : ℕ) (result : CoreRelos) : Option CoreRelos :=
  match _ : add pos 8 with
  | none => none
  | some next =>
    if next ≤ t.stop then
      match _ : readSection t pos next result with
      | none => none
      | some (after, result') => readSections t after result'
    else some result
termination_by t.stop - pos
decreasing_by
  have := eq_of_add ‹add pos 8 = some next›
  have := le_of_readSection ‹readSection t pos next result = some (after, result')›
  omega

/-- The data of the first section of a name. -/
def sectionData (sections : List Section) (name : String) : Option (List (BitVec 8)) :=
  (sections.find? fun s => s.name = some name).map (·.data)

/-- **`parse_btf_ext_core_relos`**. -/
def parseBtfExtCoreRelos (sections : List Section) : Option CoreRelos :=
  match sectionData sections ".BTF", sectionData sections ".BTF.ext" with
  | some btf, some ext => do
    match ← readTable btf ext with
    | some t => readSections t t.start .empty
    | none => return .empty
  | _, _ => some .empty

/-- An object file whose CO-RE relocations are read from its own sections. -/
def File.load (sections : List Section) (symbolByIndex : ℕ → Option Symbol)
    (lookupSourceLoc : BitVec 64 → Option SourceLoc) : Option File :=
  (parseBtfExtCoreRelos sections).map fun coreRelos =>
    ⟨sections, symbolByIndex, coreRelos.get, lookupSourceLoc⟩

end BpfVerifier.Elf
