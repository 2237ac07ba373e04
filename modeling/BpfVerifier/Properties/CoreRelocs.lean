import BpfVerifier.Elf.BtfExt

/-!
# Properties/CoreRelocs — the CO-RE relocations read from `.BTF.ext`

On sections of less than 4 GiB nothing in the reader panics, and what it returns for a section name
are the records its headers list (`parseBtfExtCoreRelos_exact`).  `readTable_eq` decides the
headers; `readSections_exact` is the loop over the section headers.
-/

namespace BpfVerifier.Elf

open Checked

/-! ## What is to be read -/

/-- The string at an offset of a string table, `""` where there is none. -/
def strAt (strtab : List (BitVec 8)) (off : BitVec 32) : String :=
  if strtab.length ≤ off.toNat then ""
  else (fromUtf8 ((strtab.drop off.toNat).takeWhile (· ≠ 0))).getD ""

/-- **The headers are accepted.** -/
structure Accepted (btf ext : List (BitVec 8)) : Prop where
  btfHeader : 24 ≤ btf.length
  strtab : (wordAt btf 4).toNat + (wordAt btf 16).toNat + (wordAt btf 20).toNat ≤ btf.length
  extHeader : 32 ≤ ext.length
  hasCoreRelo : 32 ≤ (wordAt ext 4).toNat
  hasRecSize : 4 ≤ (wordAt ext 28).toNat
  table : (wordAt ext 4).toNat + (wordAt ext 24).toNat + (wordAt ext 28).toNat ≤ ext.length
  recSize : 16 ≤ (wordAt ext ((wordAt ext 4).toNat + (wordAt ext 24).toNat)).toNat

/-- The table that the headers describe. -/
def tableOf (btf ext : List (BitVec 8)) : Table :=
  let strStart := (wordAt btf 4).toNat + (wordAt btf 16).toNat
  let reloStart := (wordAt ext 4).toNat + (wordAt ext 24).toNat
  { strtab := (btf.drop strStart).take (wordAt btf 20).toNat
    ext := ext
    recSize := (wordAt ext reloStart).toNat
    start := reloStart + 4
    stop := reloStart + (wordAt ext 28).toNat }

namespace Table

variable (t : Table)

/-- The section a header names. -/
def secName (pos : ℕ) : String := strAt t.strtab (wordAt t.ext pos)

/-- The number of records a header counts. -/
def numInfo (pos : ℕ) : ℕ := (wordAt t.ext (pos + 4)).toNat

/-- Where the records of a header end and the next header stands. -/
def after (pos : ℕ) : ℕ := pos + 8 + t.numInfo pos * t.recSize

/-- `h` is one of the section headers laid out from a position on. -/
inductive HeaderFrom : ℕ → ℕ → Prop
  | here {pos : ℕ} : pos + 8 ≤ t.stop → HeaderFrom pos pos
  | later {pos h : ℕ} : pos + 8 ≤ t.stop → HeaderFrom (t.after pos) h → HeaderFrom pos h

/-- Record `i` after a header's eight bytes is of kind 0, its first 16 bytes lie inside the table,
and it relocates the instruction at a byte offset. -/
def Relocates (next i : ℕ) (insnOff : BitVec 32) : Prop :=
  next + i * t.recSize + 16 ≤ t.stop ∧ wordAt t.ext (next + i * t.recSize + 12) = 0 ∧
    wordAt t.ext (next + i * t.recSize) = insnOff

/-- A header's records list a relocation. -/
def Lists (pos : ℕ) (insnOff : BitVec 32) : Prop :=
  ∃ i < t.numInfo pos, t.Relocates (pos + 8) i insnOff

/-- A table inside a section of less than 4 GiB. -/
structure InBounds : Prop where
  stop : t.stop ≤ t.ext.length
  length : t.ext.length < 2 ^ 32
  recSize : t.recSize < 2 ^ 32
  strtab : t.strtab.length < 2 ^ 32

end Table

/-! ## Strings -/

/-- **Reading a string panics nowhere.** -/
theorem btfStr_eq {strtab : List (BitVec 8)} (h : strtab.length < 2 ^ 32) (off : BitVec 32) :
    btfStr strtab off = some (strAt strtab off) := by
  unfold btfStr strAt
  by_cases hoff : strtab.length ≤ off.toNat
  · simp [hoff]
  · have htail : slice strtab off.toNat strtab.length = some (strtab.drop off.toNat) := by
      rw [slice_eq (by omega) le_rfl, List.take_of_length_le (by simp)]
    have htake : (strtab.drop off.toNat).takeWhile (· ≠ 0) = (strtab.drop off.toNat).take
        (((strtab.drop off.toNat).findIdx? (· = 0)).getD (strtab.drop off.toNat).length) := by
      rw [List.takeWhile_eq_take_findIdx_not, ← List.findIdx_eq_getD_findIdx?]
      simp
    simp only [ge_iff_le, hoff, if_false, htail, htake, Option.bind_eq_bind, Option.bind_some]
    cases hfind : (strtab.drop off.toNat).findIdx? (· = 0) with
    | none =>
      rw [Option.getD_none, List.take_length]
      rfl
    | some p =>
      have hp : p < (strtab.drop off.toNat).length :=
        (List.findIdx?_eq_some_iff_findIdx_eq.mp hfind).1
      rw [List.length_drop] at hp
      dsimp only
      rw [add_eq (by omega), Option.bind_some, slice_eq (by omega) (by omega), Option.bind_some,
        Nat.add_sub_cancel_left]
      rfl

/-! ## Headers -/

open Classical in
/-- **Reading the headers panics nowhere**, and accepts just the accepted ones. -/
theorem readTable_eq {btf ext : List (BitVec 8)} (hbtf : btf.length < 2 ^ 32)
    (hext : ext.length < 2 ^ 32) :
    readTable btf ext = some (if Accepted btf ext then some (tableOf btf ext) else none) := by
  have hreject (h : ¬Accepted btf ext) :
      (pure none : Option (Option Table)) =
        some (if Accepted btf ext then some (tableOf btf ext) else none) := by
    rw [if_neg h]
    rfl
  have hlt (data : List (BitVec 8)) (pos : ℕ) : (wordAt data pos).toNat < 2 ^ 32 :=
    (wordAt data pos).isLt
  unfold readTable
  by_cases hbtfHeader : btf.length < 24
  · rw [if_pos hbtfHeader]
    exact hreject fun h => absurd h.btfHeader (by omega)
  have h₄ : u32At btf 4 8 = some (wordAt btf 4) := u32At_eq (by omega)
  have h₁₆ : u32At btf 16 20 = some (wordAt btf 16) := u32At_eq (by omega)
  have h₂₀ : u32At btf 20 24 = some (wordAt btf 20) := u32At_eq (by omega)
  have hl₄ := hlt btf 4
  have hl₁₆ := hlt btf 16
  have hl₂₀ := hlt btf 20
  simp only [if_neg hbtfHeader, h₄, h₁₆, h₂₀, Option.bind_eq_bind, Option.bind_some]
  rw [add_eq (by omega), Option.bind_some, add_eq (by omega), Option.bind_some]
  by_cases hstrtab : (wordAt btf 4).toNat + (wordAt btf 16).toNat + (wordAt btf 20).toNat >
      btf.length
  · rw [if_pos hstrtab]
    exact hreject fun h => absurd h.strtab (by omega)
  rw [if_neg hstrtab, slice_eq (by omega) (by omega), Option.bind_some, Nat.add_sub_cancel_left]
  by_cases hextHeader : ext.length < 32
  · rw [if_pos hextHeader]
    exact hreject fun h => absurd h.extHeader (by omega)
  have he₄ : u32At ext 4 8 = some (wordAt ext 4) := u32At_eq (by omega)
  have he₂₄ : u32At ext 24 28 = some (wordAt ext 24) := u32At_eq (by omega)
  have he₂₈ : u32At ext 28 32 = some (wordAt ext 28) := u32At_eq (by omega)
  have hle₄ := hlt ext 4
  have hle₂₄ := hlt ext 24
  have hle₂₈ := hlt ext 28
  simp only [if_neg hextHeader, he₄, he₂₄, he₂₈, Option.bind_some]
  by_cases hcore : (wordAt ext 4).toNat < 32
  · rw [if_pos hcore]
    exact hreject fun h => absurd h.hasCoreRelo (by omega)
  rw [if_neg hcore]
  by_cases hempty : (wordAt ext 28).toNat = 0
  · rw [if_pos hempty]
    exact hreject fun h => absurd h.hasRecSize (by omega)
  rw [if_neg hempty, add_eq (by omega), Option.bind_some, add_eq (by omega), Option.bind_some]
  by_cases htable : (wordAt ext 4).toNat + (wordAt ext 24).toNat + (wordAt ext 28).toNat >
      ext.length ∨ (wordAt ext 28).toNat < 4
  · rw [if_pos htable]
    exact hreject fun h => htable.elim (fun h' => absurd h.table (by omega))
      fun h' => absurd h.hasRecSize (by omega)
  rw [if_neg htable, add_eq (by omega), Option.bind_some, u32At_eq (by omega), Option.bind_some]
  by_cases hrec : (wordAt ext ((wordAt ext 4).toNat + (wordAt ext 24).toNat)).toNat < 16
  · rw [if_pos hrec]
    exact hreject fun h => absurd h.recSize (by omega)
  rw [if_neg hrec, if_pos ⟨by omega, by omega, by omega, by omega, by omega, by omega, by omega⟩]
  rfl

theorem Accepted.inBounds {btf ext : List (BitVec 8)} (h : Accepted btf ext)
    (hext : ext.length < 2 ^ 32) : (tableOf btf ext).InBounds where
  stop := by
    have := h.table
    simp only [tableOf]
    omega
  length := hext
  recSize := (wordAt ext _).isLt
  strtab := by
    have := (wordAt btf 20).isLt
    simp only [tableOf, List.length_take, List.length_drop]
    omega

/-! ## Records -/

section

variable {t : Table} {pos : ℕ}

/-- A record is read where it stands. -/
theorem Table.InBounds.mul_lt (ht : t.InBounds) {i : ℕ} (hi : i < 2 ^ 32) :
    i * t.recSize < 2 ^ 64 - 2 ^ 33 + 2 := mul_lt_of_lt hi ht.recSize

/-- The first of the records still to come, and those after it. -/
theorem exists_record_succ {P : ℕ → Prop} {i remaining : ℕ} :
    (∃ j, i ≤ j ∧ j < i + (remaining + 1) ∧ P j) ↔
      P i ∨ ∃ j, i + 1 ≤ j ∧ j < i + 1 + remaining ∧ P j := by
  constructor
  · rintro ⟨j, hle, hlt, hj⟩
    rcases Nat.eq_or_lt_of_le hle with rfl | hlt'
    · exact Or.inl hj
    · exact Or.inr ⟨j, hlt', by omega, hj⟩
  · rintro (hi | ⟨j, hle, hlt, hj⟩)
    · exact ⟨i, le_rfl, by omega, hi⟩
    · exact ⟨j, by omega, by omega, hj⟩

/-- What one record inside the table adds. -/
theorem Table.mem_insert_iff {i : ℕ} {insnOff : BitVec 32} {set : List (BitVec 32)}
    (hin : pos + i * t.recSize + 16 ≤ t.stop) :
    insnOff ∈ (if wordAt t.ext (pos + i * t.recSize + 12) = 0 then
        set.insert (wordAt t.ext (pos + i * t.recSize)) else set) ↔
      insnOff ∈ set ∨ t.Relocates pos i insnOff := by
  unfold Table.Relocates
  by_cases hkind : wordAt t.ext (pos + i * t.recSize + 12) = 0
  · rw [if_pos hkind, List.mem_insert_iff, or_comm, eq_comm]
    simp [hkind, hin]
  · rw [if_neg hkind]
    exact (or_iff_left fun h => hkind h.2.1).symm

/-- After a record past the end of the table none stands inside it. -/
theorem Table.not_relocates {i j : ℕ} {insnOff : BitVec 32}
    (hend : t.stop < pos + i * t.recSize + 16) (hle : i ≤ j) : ¬t.Relocates pos j insnOff := by
  rintro ⟨hin, -⟩
  have := Nat.mul_le_mul_right t.recSize hle
  omega

/-- **The inner loop adds the relocations of the records still to come.** -/
theorem readRecords_exact (ht : t.InBounds) (hpos : pos < 2 ^ 32) (remaining i : ℕ)
    (set : List (BitVec 32)) (hlt : i + remaining < 2 ^ 32) :
    ∃ set', readRecords t pos remaining i set = some set' ∧ ∀ insnOff, insnOff ∈ set' ↔
      insnOff ∈ set ∨ ∃ j, i ≤ j ∧ j < i + remaining ∧ t.Relocates pos j insnOff := by
  induction remaining generalizing i set with
  | zero =>
    refine ⟨set, rfl, fun insnOff => (or_iff_left ?_).symm⟩
    rintro ⟨j, hle, hlt, -⟩
    omega
  | succ remaining ih =>
    have hsize := ht.mul_lt (i := i) (by omega)
    have hstop := ht.stop
    have hlength := ht.length
    rw [readRecords]
    simp only [mul_eq (by omega : i * t.recSize < 2 ^ 64), Option.bind_eq_bind, Option.bind_some]
    rw [add_eq (by omega), Option.bind_some, add_eq (by omega), Option.bind_some]
    by_cases hend : pos + i * t.recSize + 16 > t.stop
    · -- the loop ends at a record past the end of the table
      refine ⟨set, by rw [if_pos hend]; rfl, fun insnOff => (or_iff_left ?_).symm⟩
      rintro ⟨j, hle, -, hj⟩
      exact Table.not_relocates hend hle hj
    · rw [if_neg hend, add_eq (by omega), Option.bind_some, u32At_eq (by omega), Option.bind_some,
        add_eq (by omega), Option.bind_some, u32At_eq (by omega), Option.bind_some]
      obtain ⟨set', hread, hmem⟩ := ih (i + 1) _ (by omega)
      refine ⟨set', hread, fun insnOff => ?_⟩
      rw [hmem, Table.mem_insert_iff (Nat.le_of_not_gt hend), or_assoc, exists_record_succ]

/-! ## Section headers -/

/-- The set kept for a section. -/
def setOf (relos : CoreRelos) (name : String) : List (BitVec 32) := (relos.get name).getD []

/-- **One header adds its own records to the set of the section it names.** -/
theorem readSection_exact (ht : t.InBounds) (hpos : pos + 8 ≤ t.stop) (result : CoreRelos) :
    ∃ set, readSection t pos (pos + 8) result =
        some (t.after pos, result.insert (t.secName pos) set) ∧
      ∀ insnOff, insnOff ∈ set ↔ insnOff ∈ setOf result (t.secName pos) ∨ t.Lists pos insnOff := by
  have hstop := ht.stop
  have hlength := ht.length
  have hcount : t.numInfo pos < 2 ^ 32 := (wordAt t.ext (pos + 4)).isLt
  have hsize := ht.mul_lt hcount
  obtain ⟨set, hread, hmem⟩ := readRecords_exact ht (by omega : pos + 8 < 2 ^ 32) (t.numInfo pos) 0
    (setOf result (t.secName pos)) (by omega)
  refine ⟨set, ?_, fun insnOff => ?_⟩
  · have hname : u32At t.ext pos (pos + 4) = some (wordAt t.ext pos) := u32At_eq (by omega)
    have hinfo : u32At t.ext (pos + 4) (pos + 8) = some (wordAt t.ext (pos + 4)) :=
      u32At_eq (by omega)
    have hread' : readRecords t (pos + 8) (wordAt t.ext (pos + 4)).toNat 0
        ((result.get (t.secName pos)).getD []) = some set := hread
    have hsec : btfStr t.strtab (wordAt t.ext pos) = some (t.secName pos) :=
      btfStr_eq ht.strtab _
    have hmul : mul (wordAt t.ext (pos + 4)).toNat t.recSize =
        some (t.numInfo pos * t.recSize) := mul_eq (by omega : t.numInfo pos * t.recSize < 2 ^ 64)
    have hafter : add (pos + 8) (t.numInfo pos * t.recSize) = some (t.after pos) :=
      add_eq (by omega)
    simp only [readSection, Option.bind_eq_bind, add_eq (by omega : pos + 4 < 2 ^ 64), hname, hinfo,
      hsec, hread', hmul, hafter, Option.bind_some]
    rfl
  · rw [hmem]
    simp [Table.Lists]

theorem setOf_insert (relos : CoreRelos) (name name' : String) (set : List (BitVec 32)) :
    setOf (relos.insert name set) name' = if name' = name then set else setOf relos name' := by
  rw [setOf, AssocMap.get_insert]
  split <;> rfl

/-- A header laid out from a position stands there or after it. -/
theorem Table.headerFrom_iff {h : ℕ} (hpos : pos + 8 ≤ t.stop) :
    t.HeaderFrom pos h ↔ h = pos ∨ t.HeaderFrom (t.after pos) h := by
  constructor
  · intro hh
    cases hh with
    | here => exact Or.inl rfl
    | later _ hh => exact Or.inr hh
  · rintro (rfl | hh)
    · exact .here hpos
    · exact .later hpos hh

theorem Table.not_headerFrom {h : ℕ} (hpos : t.stop < pos + 8) : ¬t.HeaderFrom pos h := by
  intro hh
  cases hh <;> omega

end

/-- A map holds what another holds and what the headers from a position on list. -/
structure Table.Adds (t : Table) (pos : ℕ) (result result' : CoreRelos) : Prop where
  entry : ∀ name, (result'.get name).isSome ↔
    (result.get name).isSome ∨ ∃ h, t.HeaderFrom pos h ∧ t.secName h = name
  offsets : ∀ name insnOff, insnOff ∈ setOf result' name ↔ insnOff ∈ setOf result name ∨
    ∃ h, t.HeaderFrom pos h ∧ t.secName h = name ∧ t.Lists h insnOff

theorem Table.adds_nil {t : Table} {pos : ℕ} {result : CoreRelos} (hpos : t.stop < pos + 8) :
    t.Adds pos result result where
  entry _ := (or_iff_left fun ⟨_, hh, _⟩ => Table.not_headerFrom hpos hh).symm
  offsets _ _ := (or_iff_left fun ⟨_, hh, _⟩ => Table.not_headerFrom hpos hh).symm

/-- A header's own records first, then those of the headers after it. -/
theorem Table.Adds.cons {t : Table} {pos : ℕ} {result result' : CoreRelos} {set : List (BitVec 32)}
    (hpos : pos + 8 ≤ t.stop)
    (hset : ∀ insnOff, insnOff ∈ set ↔
      insnOff ∈ setOf result (t.secName pos) ∨ t.Lists pos insnOff)
    (h : t.Adds (t.after pos) (result.insert (t.secName pos) set) result') :
    t.Adds pos result result' where
  entry name := by
    rw [h.entry, AssocMap.get_insert]
    simp only [Table.headerFrom_iff hpos, or_and_right, exists_or, exists_eq_left]
    by_cases hname : name = t.secName pos
    · simp [hname]
    · simp [hname, Ne.symm hname]
  offsets name insnOff := by
    rw [h.offsets, setOf_insert]
    simp only [Table.headerFrom_iff hpos, or_and_right, exists_or, exists_eq_left]
    by_cases hname : name = t.secName pos
    · rw [if_pos hname, hset, ← hname]
      simp [or_assoc]
    · simp [hname, Ne.symm hname]

/-- **The outer loop adds the records of every header still to come**, each to its section. -/
theorem readSections_exact {t : Table} (ht : t.InBounds) (pos : ℕ) (result : CoreRelos)
    (hpos : pos + 8 < 2 ^ 64) :
    ∃ result', readSections t pos result = some result' ∧ t.Adds pos result result' := by
  have hadd : add pos 8 = some (pos + 8) := add_eq hpos
  fun_induction readSections t pos result with
  | case1 pos result hnone => rw [hadd] at hnone; cases hnone
  | case2 pos result next hnext hin hnone =>
    obtain rfl := eq_of_add hnext
    obtain ⟨set, hread, -⟩ := readSection_exact ht hin result
    rw [hread] at hnone
    cases hnone
  | case3 pos result next hnext hin after result' hread ih =>
    obtain rfl := eq_of_add hnext
    obtain ⟨set, hread', hset⟩ := readSection_exact ht hin result
    rw [hread'] at hread
    obtain ⟨rfl, rfl⟩ := Prod.mk.inj (Option.some.inj hread)
    have hstop := ht.stop
    have hlength := ht.length
    have hsize := ht.mul_lt (wordAt t.ext (pos + 4)).isLt
    have hafter : t.after pos + 8 < 2 ^ 64 := by
      unfold Table.after Table.numInfo
      omega
    obtain ⟨result', hrest, hadds⟩ := ih hafter (add_eq hafter)
    exact ⟨result', hrest, .cons hin hset hadds⟩
  | case4 pos result next hnext hout =>
    obtain rfl := eq_of_add hnext
    exact ⟨result, rfl, Table.adds_nil (by omega)⟩

/-! ## The relocations -/

/-- **A map is read from a table**: a section has a set where a header names it, of the relocations
that the headers naming it list. -/
structure Table.ReadAs (t : Table) (relos : CoreRelos) : Prop where
  entry : ∀ name, (relos.get name).isSome ↔ ∃ h, t.HeaderFrom t.start h ∧ t.secName h = name
  offsets : ∀ name insnOff, insnOff ∈ setOf relos name ↔
    ∃ h, t.HeaderFrom t.start h ∧ t.secName h = name ∧ t.Lists h insnOff

theorem readSections_start {t : Table} (ht : t.InBounds) (hstart : t.start + 8 < 2 ^ 64) :
    ∃ relos, readSections t t.start .empty = some relos ∧ t.ReadAs relos := by
  obtain ⟨relos, hread, hadds⟩ := readSections_exact ht t.start .empty hstart
  refine ⟨relos, hread, fun name => ?_, fun name insnOff => ?_⟩
  · rw [hadds.entry]
    simp
  · rw [hadds.offsets]
    simp [setOf]

/-- What the reader makes of two sections. -/
structure Exact (btf ext : List (BitVec 8)) (relos : CoreRelos) : Prop where
  accepted : Accepted btf ext → (tableOf btf ext).ReadAs relos
  rejected : ¬Accepted btf ext → relos = .empty

theorem exists_exact {sections : List Section} {btf ext : List (BitVec 8)}
    (hbtf : sectionData sections ".BTF" = some btf)
    (hext : sectionData sections ".BTF.ext" = some ext)
    (hbtfLength : btf.length < 2 ^ 32) (hextLength : ext.length < 2 ^ 32) :
    ∃ relos, parseBtfExtCoreRelos sections = some relos ∧ Exact btf ext relos := by
  have htable := readTable_eq hbtfLength hextLength
  unfold parseBtfExtCoreRelos
  simp only [hbtf, hext, htable, Option.bind_eq_bind, Option.bind_some]
  by_cases haccepted : Accepted btf ext
  · have hfits := haccepted.table
    have hstart : (tableOf btf ext).start + 8 < 2 ^ 64 := by
      simp only [tableOf]
      omega
    obtain ⟨relos, hread, hreadAs⟩ := readSections_start (haccepted.inBounds hextLength) hstart
    rw [if_pos haccepted]
    exact ⟨relos, hread, fun _ => hreadAs, fun h => absurd haccepted h⟩
  · rw [if_neg haccepted]
    exact ⟨.empty, rfl, fun h => absurd h haccepted, fun _ => rfl⟩

/-- **The reader of `.BTF.ext` is safe and exact** on sections of less than 4 GiB. -/
theorem parseBtfExtCoreRelos_exact (sections : List Section) (btf ext : List (BitVec 8))
    (hbtf : sectionData sections ".BTF" = some btf)
    (hext : sectionData sections ".BTF.ext" = some ext)
    (hbtfLength : btf.length < 2 ^ 32) (hextLength : ext.length < 2 ^ 32) :
    ∃ relos, parseBtfExtCoreRelos sections = some relos ∧ Exact btf ext relos :=
  exists_exact hbtf hext hbtfLength hextLength

/-- One string, `"a"`, at offset 1. -/
def oneStringBtf : List (BitVec 8) :=
  [0x9f, 0xeb, 1, 0, 24, 0, 0, 0, 0, 0, 0, 0, 0, 0, 0, 0, 0, 0, 0, 0, 3, 0, 0, 0, 0, 0x61, 0]

/-- One header, for the section `"a"`, and one record of kind 0, at byte 8. -/
def oneRecordExt : List (BitVec 8) :=
  [0x9f, 0xeb, 1, 0, 32, 0, 0, 0, 0, 0, 0, 0, 0, 0, 0, 0, 0, 0, 0, 0, 0, 0, 0, 0, 0, 0, 0, 0, 28, 0,
    0, 0, 16, 0, 0, 0, 1, 0, 0, 0, 1, 0, 0, 0, 8, 0, 0, 0, 0, 0, 0, 0, 0, 0, 0, 0, 0, 0, 0, 0]

def oneRecordSections : List Section :=
  [⟨1, false, some ".BTF", 0, oneStringBtf⟩, ⟨2, false, some ".BTF.ext", 0, oneRecordExt⟩]

theorem parseBtfExtCoreRelos_exact_oneRecord : Accepted oneStringBtf oneRecordExt ∧
    ∃ relos, parseBtfExtCoreRelos oneRecordSections = some relos ∧
      Exact oneStringBtf oneRecordExt relos :=
  ⟨⟨by decide, by decide, by decide, by decide, by decide, by decide, by decide⟩,
    parseBtfExtCoreRelos_exact oneRecordSections oneStringBtf oneRecordExt (by decide) (by decide)
      (by decide) (by decide)⟩

theorem SectionEnv.relocAt_of_none {env : SectionEnv} {offset : ℕ}
    (h : env.relocOffsets.get offset = none) :
    env.relocAt offset = some .coreFieldOffset ↔
      BitVec.ofNat 32 offset ∈ env.coreRelos.getD [] := by
  unfold relocAt
  rw [h]
  cases env.coreRelos with
  | none => simp
  | some set => simp

/-- **An LD_IMM64 without an ELF relocation is a CO-RE field offset** just when a header that names
its section lists it. -/
theorem relocAt_of_load {sections : List Section} {btf ext : List (BitVec 8)} {file : File}
    {symbolByIndex : ℕ → Option Symbol} {lookupSourceLoc : BitVec 64 → Option SourceLoc}
    (hload : File.load sections symbolByIndex lookupSourceLoc = some file)
    (hbtf : sectionData sections ".BTF" = some btf)
    (hext : sectionData sections ".BTF.ext" = some ext)
    (hbtfLength : btf.length < 2 ^ 32) (hextLength : ext.length < 2 ^ 32)
    (haccepted : Accepted btf ext) {s : Section} {name : String} {offset : ℕ}
    (hnone : (relocOffsets file name).get offset = none) :
    (file.env s name).relocAt offset = some .coreFieldOffset ↔
      ∃ h, (tableOf btf ext).HeaderFrom (tableOf btf ext).start h ∧
        (tableOf btf ext).secName h = name ∧
        (tableOf btf ext).Lists h (BitVec.ofNat 32 offset) := by
  obtain ⟨relos, hparse, hexact⟩ := exists_exact hbtf hext hbtfLength hextLength
  rw [File.load, hparse, Option.map_some] at hload
  obtain rfl := Option.some.inj hload
  rw [SectionEnv.relocAt_of_none hnone, ← (hexact.accepted haccepted).offsets]
  rfl

end BpfVerifier.Elf
