import BpfVerifier.Bpf.Decode
import BpfVerifier.Kverify.Worklist

/-!
# Elf/Parser — `parse_elf`, from section data to decoded programmes

What the object file says (`File`) is given; the sections that hold programmes, their relocations
and the instruction loop are the parser's.
-/

namespace BpfVerifier.Elf

/-- A section as the object file gives it. -/
structure Section where
  index : ℕ
  isText : Bool
  /-- The name, when it can be read. -/
  name : Option String
  address : BitVec 64
  data : List (BitVec 8)

structure Symbol where
  name : Option String
  sectionIndex : Option ℕ

/-- An object file, with its CO-RE relocations (byte offsets by section) and its line table. -/
structure File where
  sections : List Section
  symbolByIndex : ℕ → Option Symbol
  coreRelos : String → Option (List (BitVec 32))
  lookupSourceLoc : BitVec 64 → Option SourceLoc

inductive ParseError where
  | noProgramSections
  | unalignedSection (name : String)
  deriving DecidableEq, Repr

/-- The message of an error. -/
def ParseError.display : ParseError → String
  | .noProgramSections => "no BPF program sections found"
  | .unalignedSection name => "section '" ++ name ++ "' data is not aligned to 8 bytes"

/-- The 8-byte little-endian words of section data; what is left over is dropped. -/
def leWords : List (BitVec 8) → List (BitVec 64)
  | b₀ :: b₁ :: b₂ :: b₃ :: b₄ :: b₅ :: b₆ :: b₇ :: rest =>
    (b₇ ++ b₆ ++ b₅ ++ b₄ ++ b₃ ++ b₂ ++ b₁ ++ b₀) :: leWords rest
  | _ => []

/-! ## Relocations -/

/-- REL entries: an offset and an info word each. -/
def relEntries : List (BitVec 64) → List (BitVec 64 × BitVec 64)
  | offset :: info :: rest => (offset, info) :: relEntries rest
  | _ => []

/-- The sections that hold maps. -/
def mapSectionIndices (file : File) : List ℕ :=
  (file.sections.filter fun s => s.name = some ".maps" ∨ s.name = some "maps").map (·.index)

/-- One REL entry: an R_BPF_64_64 of a known symbol targets a map or data. -/
def relocate (file : File) (relocOffsets : AssocMap ℕ RelocTarget)
    (entry : BitVec 64 × BitVec 64) : AssocMap ℕ RelocTarget :=
  let (offset, info) := entry
  let symIdx : BitVec 32 := (info >>> 32).setWidth 32
  let relType : BitVec 32 := info.setWidth 32
  if relType ≠ 1 then relocOffsets
  else match file.symbolByIndex symIdx.toNat with
    | none => relocOffsets
    | some sym =>
      let symName := sym.name.getD ""
      let target :=
        if sym.sectionIndex.any fun si => si ∈ mapSectionIndices file then .map symName
        else .data symName
      relocOffsets.insert offset.toNat target

/-- The relocated byte offsets of a section, from its ".rel" sections. -/
def relocOffsets (file : File) (name : String) : AssocMap ℕ RelocTarget :=
  let relSections := file.sections.filter fun s =>
    s.name.getD "" = ".rel" ++ name ∨ s.name.getD "" = ".rel." ++ name
  (relSections.flatMap fun s => relEntries (leWords s.data)).foldl (relocate file) .empty

/-! ## The instruction loop -/

/-- What the loop over the words of a section reads besides them. -/
structure SectionEnv where
  address : BitVec 64
  relocOffsets : AssocMap ℕ RelocTarget
  coreRelos : Option (List (BitVec 32))
  lookupSourceLoc : BitVec 64 → Option SourceLoc

/-- The variables of the loop. -/
structure Decoding where
  instructions : List BpfInsn
  sourceLocs : List (Option SourceLoc)
  relocations : AssocMap ℕ RelocTarget
  /-- The relocations not met yet. -/
  relocOffsets : AssocMap ℕ RelocTarget
  byteOffset : ℕ
  insnIdx : ℕ

namespace Decoding

variable (d : Decoding)

/-- `byte_offset += 8`. -/
def advance : Decoding := { d with byteOffset := d.byteOffset + 8 }

/-- Append an instruction at an address. -/
def push (env : SectionEnv) (insnAddr : BitVec 64) (insn : BpfInsn) : Decoding :=
  { d with instructions := d.instructions ++ [insn]
           sourceLocs := d.sourceLocs ++ [env.lookupSourceLoc insnAddr]
           insnIdx := d.insnIdx + 1 }

/-- Record the relocation of an LD_IMM64: the ELF one, else the CO-RE one. -/
def relocate (env : SectionEnv) : Decoding :=
  match d.relocOffsets.get d.byteOffset with
  | some target =>
    { d with relocOffsets := d.relocOffsets.remove d.byteOffset
             relocations := d.relocations.insert d.insnIdx target }
  | none =>
    -- `byte_offset as u32`
    if env.coreRelos.any fun set => BitVec.ofNat 32 d.byteOffset ∈ set then
      { d with relocations := d.relocations.insert d.insnIdx .coreFieldOffset }
    else d

end Decoding

/-- The target the loop finds for an LD_IMM64 at a byte offset. -/
def SectionEnv.relocAt (env : SectionEnv) (offset : ℕ) : Option RelocTarget :=
  match env.relocOffsets.get offset with
  | some target => some target
  | none =>
    if env.coreRelos.any fun set => BitVec.ofNat 32 offset ∈ set then some .coreFieldOffset
    else none

/-- An LD_IMM64 with its upper half, from the next word. -/
def withHigh (insn : BpfInsn) (raw₂ : BitVec 64) : BpfInsn :=
  { insn with imm64 := some (insn.immU ||| (immBytes raw₂).zeroExtend 64 <<< 32) }

/-- **The instruction loop of `parse_elf`.**  A word that does not decode is passed over. -/
def decodeWords (env : SectionEnv) : List (BitVec 64) → Decoding → Decoding
  | [], d => d
  | raw :: rest, d =>
    let insnAddr := env.address + BitVec.ofNat 64 d.byteOffset
    match BpfInsn.decode raw with
    | none => decodeWords env rest d.advance
    | some insn =>
      if insn.opcode = .ldImm64 then
        match rest with
        | raw₂ :: rest =>
          decodeWords env rest
            (((d.relocate env).advance.push env insnAddr (withHigh insn raw₂)).advance)
        | [] => (d.push env insnAddr insn).advance
      else decodeWords env rest (d.push env insnAddr insn).advance

/-- The loop before the first word. -/
def SectionEnv.start (env : SectionEnv) : Decoding := ⟨[], [], .empty, env.relocOffsets, 0, 0⟩

/-- The programme of a section's words. -/
def SectionEnv.program (env : SectionEnv) (words : List (BitVec 64)) : Program :=
  let d := decodeWords env words env.start
  ⟨d.instructions, d.sourceLocs, d.relocations⟩

/-! ## Sections -/

structure BpfProgram extends Program where
  sectionName : String

/-- The name of a section that holds a programme. -/
def Section.programName (s : Section) : Option String :=
  if s.isText then s.name.filter fun n => !n.isEmpty && !n.startsWith "." else none

/-- What the loop reads for a section of a file. -/
def File.env (file : File) (s : Section) (name : String) : SectionEnv :=
  ⟨s.address, relocOffsets file name, file.coreRelos name, file.lookupSourceLoc⟩

def parseSections (file : File) : List Section → Except ParseError (List BpfProgram)
  | [] => .ok []
  | s :: rest =>
    match s.programName with
    | none => parseSections file rest
    | some name =>
      if s.data.length % 8 ≠ 0 then .error (.unalignedSection name)
      else (parseSections file rest).map fun programs =>
        ⟨(file.env s name).program (leWords s.data), name⟩ :: programs

/-- **`parse_elf`**, its programmes. -/
def parseElf (file : File) : Except ParseError (List BpfProgram) :=
  match parseSections file file.sections with
  | .error e => .error e
  | .ok [] => .error .noProgramSections
  | .ok programs => .ok programs

/-! ## Programmes come from sections -/

theorem length_leWords (data : List (BitVec 8)) : (leWords data).length = data.length / 8 := by
  fun_induction leWords data with
  | case1 b₀ b₁ b₂ b₃ b₄ b₅ b₆ b₇ rest ih =>
    simp only [List.length_cons, ih]
    omega
  | case2 data hshort =>
    rcases data with
      _ | ⟨b₀, _ | ⟨b₁, _ | ⟨b₂, _ | ⟨b₃, _ | ⟨b₄, _ | ⟨b₅, _ | ⟨b₆, _ | ⟨b₇, rest⟩⟩⟩⟩⟩⟩⟩⟩
    · rfl
    on_goal 8 => exact absurd rfl (hshort b₀ b₁ b₂ b₃ b₄ b₅ b₆ b₇ rest)
    all_goals simp

/-- A section that a programme is decoded from: all its data, as words. -/
structure Section.Gives (s : Section) (file : File) (p : BpfProgram) : Prop where
  name : s.programName = some p.sectionName
  words : 8 * (leWords s.data).length = s.data.length
  program : p.toProgram = (file.env s p.sectionName).program (leWords s.data)

theorem mem_parseSections {file : File} {sections : List Section} {programs : List BpfProgram}
    (h : parseSections file sections = .ok programs) {p : BpfProgram} (hp : p ∈ programs) :
    ∃ s ∈ sections, s.Gives file p := by
  induction sections generalizing programs with
  | nil =>
    obtain rfl := Except.ok.inj h
    cases hp
  | cons s rest ih =>
    have hrest {tail : List BpfProgram} (h : parseSections file rest = .ok tail) (hp : p ∈ tail) :
        ∃ s' ∈ s :: rest, s'.Gives file p := by
      obtain ⟨s', hs', hgives⟩ := ih h hp
      exact ⟨s', List.mem_cons_of_mem s hs', hgives⟩
    rw [parseSections] at h
    split at h
    · exact hrest h hp
    · next name hname =>
      split at h
      · cases h
      · next hmod =>
        cases htail : parseSections file rest with
        | error e => simp [htail, Except.map] at h
        | ok tail =>
          simp only [htail, Except.map] at h
          obtain rfl := Except.ok.inj h
          rcases List.mem_cons.mp hp with rfl | hp
          · exact ⟨s, by simp, hname, by rw [length_leWords]; omega, rfl⟩
          · exact hrest htail hp

/-- **Each programme of a parsed file is decoded from all words of a text section.** -/
theorem mem_parseElf {file : File} {programs : List BpfProgram}
    (h : parseElf file = .ok programs) {p : BpfProgram} (hp : p ∈ programs) :
    ∃ s ∈ file.sections, s.Gives file p := by
  unfold parseElf at h
  split at h
  · cases h
  · cases h
  · next hsections =>
    obtain rfl := Except.ok.inj h
    exact mem_parseSections hsections hp

end BpfVerifier.Elf
