import BpfVerifier.Elf.Structs

/-!
# Properties/StructSizes — whose sizes the fields of structures have

References are relative to a unit, but the maps they are looked up in hold the entries of all units,
those of a later unit in place of those of an earlier one.  `ownSizes_iff` says when each field has
the size its own unit gives it.
-/

namespace BpfVerifier.Elf

/-! ## What a field is to have -/

/-- A field with the member and the unit it was made from. -/
structure Origin where
  unit : List Entry
  member : Entry
  field : StructField

/-- `extract_structs`, remembering the members. -/
def tracedStructs (units : List (List Entry)) : List (Struct Origin) :=
  scan (fun unit member => ((TypeMaps.ofUnits units).field member).map (Origin.mk unit member))
    units

/-- The size found by following type references inside a unit. -/
def ownSize (unit : List Entry) (member : Entry) : Option ℕ :=
  (TypeMaps.ofUnits [unit]).byteSize member

/-- **Every field returned has the size its member has in its own unit.** -/
def OwnSizes (units : List (List Entry)) : Prop :=
  ∀ s ∈ tracedStructs units, ∀ o ∈ s.fields, ownSize o.unit o.member = some o.field.byteSize

/-! ## The condition -/

/-- The value of an attribute in the last of some entries that has it at an offset. -/
abbrev lastAt (attr : Entry → Option ℕ) (entries : List Entry) (offset : ℕ) : Option ℕ :=
  AssocMap.lastValue Entry.offset attr entries offset

/-- Some links from an offset on, among some entries, there is a size: at each offset the last entry
counts, and a size before a reference. -/
inductive Leads (entries : List Entry) : ℕ → ℕ → ℕ → Prop
  | size {links offset size : ℕ} : lastAt Entry.byteSize entries offset = some size →
      Leads entries (links + 1) offset size
  | link {links offset target size : ℕ} : lastAt Entry.byteSize entries offset = none →
      lastAt Entry.typeRef entries offset = some target → Leads entries links target size →
      Leads entries (links + 1) offset size

/-- The members of named structures, whether one is open or not. -/
def structMembers : Bool → List Entry → List Entry
  | _, [] => []
  | inStruct, entry :: rest =>
    match entry.tag with
    | .structureType => structMembers entry.name.isSome rest
    | .member => if inStruct then entry :: structMembers true rest else structMembers false rest
    | .other => structMembers false rest

/-- **No member is led to a width by other units**: one that the entries of all units together lead
to 1, 2, 4 or 8 bytes is led there by its own unit's. -/
def Undisturbed (units : List (List Entry)) : Prop :=
  ∀ unit ∈ units, ∀ member ∈ structMembers false unit, member.name.isSome →
    member.dataMemberLocation.isSome → ∀ offset, member.typeRef = some offset →
      ∀ size, size = 1 ∨ size = 2 ∨ size = 4 ∨ size = 8 →
        Leads units.flatten 10 offset size → Leads unit 10 offset size

/-! ## The maps -/

theorem foldl_enter (maps : TypeMaps) (entries : List Entry) :
    entries.foldl TypeMaps.enter maps =
      ⟨maps.sizes.insertAll Entry.offset Entry.byteSize entries,
        maps.refs.insertAll Entry.offset Entry.typeRef entries⟩ := by
  induction entries generalizing maps with
  | nil => rfl
  | cons entry entries ih =>
    rw [List.foldl_cons, ih, TypeMaps.enter]
    simp only [AssocMap.insertAll, List.foldl_cons]
    cases entry.byteSize <;> cases entry.typeRef <;> rfl

theorem ofUnits_eq (units : List (List Entry)) :
    TypeMaps.ofUnits units =
      ⟨AssocMap.insertAll Entry.offset Entry.byteSize .empty units.flatten,
        AssocMap.insertAll Entry.offset Entry.typeRef .empty units.flatten⟩ := by
  rw [TypeMaps.ofUnits, ← List.foldl_flatten, foldl_enter]
  rfl

theorem get_sizes (units : List (List Entry)) (offset : ℕ) :
    (TypeMaps.ofUnits units).sizes.get offset = lastAt Entry.byteSize units.flatten offset := by
  rw [ofUnits_eq, AssocMap.get_insertAll, AssocMap.get_empty, Option.or_none]

theorem get_refs (units : List (List Entry)) (offset : ℕ) :
    (TypeMaps.ofUnits units).refs.get offset = lastAt Entry.typeRef units.flatten offset := by
  rw [ofUnits_eq, AssocMap.get_insertAll, AssocMap.get_empty, Option.or_none]

/-- **The walk follows the last entries of all units.** -/
theorem chase_eq_some (units : List (List Entry)) (size : ℕ) :
    ∀ links offset, (TypeMaps.ofUnits units).chase links offset = some size ↔
      Leads units.flatten links offset size
  | 0, offset => by
      refine ⟨fun h => by simp [TypeMaps.chase] at h, fun h => ?_⟩
      cases h
  | links + 1, offset => by
      rw [TypeMaps.chase, get_sizes, get_refs]
      constructor
      · intro h
        split at h
        · next sz hsize =>
          obtain rfl := Option.some.inj h
          exact .size hsize
        · next hnone =>
          split at h
          · next target href =>
            exact .link hnone href ((chase_eq_some units size links target).mp h)
          · cases h
      · rintro (hsize | ⟨hnone, href, hleads⟩)
        · rw [hsize]
        · rw [hnone, href]
          exact (chase_eq_some units size links _).mpr hleads

/-! ## The members collected -/

namespace Scanning

variable {φ : Type}

/-- The fields met so far. -/
def collected (s : Scanning φ) : List φ := s.result.flatMap (·.fields) ++ s.currentFields

/-- Fields belong to a structure. -/
def Tidy (s : Scanning φ) : Prop := s.currentStruct = none → s.currentFields = []

theorem tidy_start (result : List (Struct φ)) : Tidy ⟨result, none, []⟩ := fun _ => rfl

@[simp] theorem collected_close (s : Scanning φ) : s.close.collected = s.collected := by
  unfold close
  split
  · rfl
  · split
    · rfl
    · simp [collected]

theorem currentStruct_close (s : Scanning φ) : s.close.currentStruct = none := by
  unfold close
  split
  · assumption
  · split <;> rfl

theorem Tidy.currentFields_close {s : Scanning φ} (h : s.Tidy) : s.close.currentFields = [] := by
  unfold close
  split
  · next hnone => exact h hnone
  · split
    · assumption
    · rfl

theorem Tidy.step {s : Scanning φ} (h : s.Tidy) (field : Entry → Option φ) (entry : Entry) :
    (s.step field entry).Tidy := by
  unfold Scanning.step
  cases entry.tag with
  | structureType => exact fun _ => rfl
  | member =>
    dsimp only
    split
    · exact h
    · exact fun hnone => nomatch hnone
  | other =>
    dsimp only
    split
    · exact fun _ => h.currentFields_close
    · exact h

theorem Tidy.foldl {s : Scanning φ} (h : s.Tidy) (field : Entry → Option φ)
    (entries : List Entry) : (entries.foldl (fun s => Scanning.step s field) s).Tidy := by
  induction entries generalizing s with
  | nil => exact h
  | cons entry entries ih => exact ih (h.step field entry)

/-- Only a member adds a field. -/
theorem Tidy.collected_step {s : Scanning φ} (h : s.Tidy) (field : Entry → Option φ)
    {entry : Entry} (hne : entry.tag ≠ .member) : (s.step field entry).collected = s.collected := by
  cases htag : entry.tag with
  | structureType =>
    have hclose := collected_close s
    rw [collected, h.currentFields_close] at hclose
    simpa [Scanning.step, htag, collected] using hclose
  | member => exact absurd htag hne
  | other =>
    simp only [Scanning.step, htag]
    split <;> simp

/-- A member adds a field where a structure is open, which stays open. -/
theorem step_member {s : Scanning φ} (field : Entry → Option φ) {entry : Entry}
    (htag : entry.tag = .member) (hopen : s.currentStruct.isSome = true) :
    (s.step field entry).collected = s.collected ++ (field entry).toList ∧
      (s.step field entry).currentStruct.isSome = true := by
  obtain ⟨current, hcurrent⟩ := Option.isSome_iff_exists.mp hopen
  simp [step, htag, hcurrent, collected]

/-- **The fields of a unit are those of its structures' members.** -/
theorem collected_foldl (field : Entry → Option φ) (entries : List Entry) (s : Scanning φ)
    (h : s.Tidy) :
    (entries.foldl (fun s => step s field) s).collected =
      s.collected ++ (structMembers s.currentStruct.isSome entries).filterMap field := by
  induction entries generalizing s with
  | nil => simp [structMembers]
  | cons entry entries ih =>
    rw [List.foldl_cons, ih _ (h.step field entry), structMembers]
    cases htag : entry.tag with
    | structureType =>
      have hstruct : (s.step field entry).currentStruct.isSome = entry.name.isSome := by
        simp [step, htag]
      rw [h.collected_step field (by simp [htag]), hstruct]
    | member =>
      cases hopen : s.currentStruct.isSome with
      | false =>
        have hcurrent : s.currentStruct = none := by simpa using hopen
        have hstep : s.step field entry = s := by simp [step, htag, hcurrent]
        simp [hstep, hopen]
      | true =>
        obtain ⟨hcollected, hstruct⟩ := step_member field htag hopen
        rw [hcollected, hstruct]
        cases hfield : field entry <;> simp [hfield]
    | other =>
      have hstruct : (s.step field entry).currentStruct.isSome = false := by
        simp only [step, htag]
        split
        · simp [currentStruct_close]
        · next hnone => simpa using hnone
      rw [h.collected_step field (by simp [htag]), hstruct]

theorem flatMap_unit (field : Entry → Option φ) (result : List (Struct φ)) (entries : List Entry) :
    (unit field result entries).flatMap (·.fields) =
      result.flatMap (·.fields) ++ (structMembers false entries).filterMap field := by
  have hclose := collected_close (entries.foldl (fun s => step s field) ⟨result, none, []⟩)
  rw [collected, ((tidy_start result).foldl field entries).currentFields_close, List.append_nil,
    collected_foldl field entries _ (tidy_start result)] at hclose
  rw [unit, hclose]
  simp [collected]

end Scanning

/-- **The fields of the structures found are those of the members of each unit**, in order. -/
theorem flatMap_scan {φ : Type} (field : List Entry → Entry → Option φ)
    (units : List (List Entry)) :
    (scan field units).flatMap (·.fields) =
      units.flatMap fun unit => (structMembers false unit).filterMap (field unit) := by
  have hfold (result : List (Struct φ)) :
      (units.foldl (fun result entries => Scanning.unit (field entries) result entries)
        result).flatMap (·.fields) = result.flatMap (·.fields) ++
          units.flatMap fun unit => (structMembers false unit).filterMap (field unit) := by
    induction units generalizing result with
    | nil => simp
    | cons unit units ih => rw [List.foldl_cons, ih, Scanning.flatMap_unit]; simp
  exact hfold []

theorem mem_fields_scan {φ : Type} {field : List Entry → Entry → Option φ}
    {units : List (List Entry)} {f : φ} :
    (∃ s ∈ scan field units, f ∈ s.fields) ↔
      ∃ unit ∈ units, ∃ member ∈ structMembers false unit, field unit member = some f := by
  rw [← List.mem_flatMap, flatMap_scan]
  simp

/-! ## Tracing changes nothing -/

/-- Rewrite the fields of a structure. -/
def Struct.map {φ ψ : Type} (g : φ → ψ) (s : Struct φ) : Struct ψ :=
  ⟨s.name, s.isUserDefined, s.fields.map g⟩

namespace Scanning

variable {φ ψ : Type}

/-- Rewrite the fields met so far. -/
def map (g : φ → ψ) (s : Scanning φ) : Scanning ψ :=
  ⟨s.result.map (Struct.map g), s.currentStruct, s.currentFields.map g⟩

theorem close_map (g : φ → ψ) (s : Scanning φ) : (s.map g).close = s.close.map g := by
  unfold close
  simp only [map, List.map_eq_nil_iff]
  split
  · rfl
  · split <;> simp [Struct.map]

theorem step_map (g : φ → ψ) (field : Entry → Option φ) (s : Scanning φ) (entry : Entry) :
    (s.map g).step (fun e => (field e).map g) entry = (s.step field entry).map g := by
  unfold step
  rw [close_map]
  cases entry.tag with
  | structureType => rfl
  | member =>
    simp only [map]
    split
    · rfl
    · cases field entry <;> simp
  | other =>
    exact (apply_ite (map g) _ _ _).symm

theorem unit_map (g : φ → ψ) (field : Entry → Option φ) (result : List (Struct φ))
    (entries : List Entry) :
    unit (fun e => (field e).map g) (result.map (Struct.map g)) entries =
      (unit field result entries).map (Struct.map g) := by
  have hfold (s : Scanning φ) :
      entries.foldl (fun s => step s fun e => (field e).map g) (s.map g) =
        (entries.foldl (fun s => step s field) s).map g := by
    induction entries generalizing s with
    | nil => rfl
    | cons entry entries ih => rw [List.foldl_cons, List.foldl_cons, step_map, ih]
  have hrun := hfold ⟨result, none, []⟩
  simp only [map, List.map_nil] at hrun
  rw [unit, hrun]
  exact congrArg Scanning.result (close_map g _)

end Scanning

theorem scan_map {φ ψ : Type} (g : φ → ψ) (field : List Entry → Entry → Option φ)
    (units : List (List Entry)) :
    scan (fun unit member => (field unit member).map g) units =
      (scan field units).map (Struct.map g) := by
  have hfold (result : List (Struct φ)) :
      units.foldl (fun result entries =>
        Scanning.unit (fun member => (field entries member).map g) result entries)
        (result.map (Struct.map g)) =
      (units.foldl (fun result entries => Scanning.unit (field entries) result entries)
        result).map (Struct.map g) := by
    induction units generalizing result with
    | nil => rfl
    | cons unit units ih => rw [List.foldl_cons, List.foldl_cons, Scanning.unit_map, ih]
  exact hfold []

/-- **The structures traced are those returned.** -/
theorem map_tracedStructs (units : List (List Entry)) :
    (tracedStructs units).map (Struct.map Origin.field) = extractStructs units := by
  rw [tracedStructs, ← scan_map, extractStructs]
  congr 1
  funext unit member
  cases (TypeMaps.ofUnits units).field member <;> rfl

/-! ## Own sizes -/

/-- When a member has a field. -/
theorem field_eq_some {maps : TypeMaps} {member : Entry} {f : StructField} :
    maps.field member = some f ↔ member.name = some f.name ∧
      member.dataMemberLocation = some f.offset ∧ maps.byteSize member = some f.byteSize ∧
      (f.byteSize = 1 ∨ f.byteSize = 2 ∨ f.byteSize = 4 ∨ f.byteSize = 8) := by
  obtain ⟨name, offset, size⟩ := f
  unfold TypeMaps.field
  cases member.name with
  | none => simp
  | some name' =>
    cases member.dataMemberLocation with
    | none => simp
    | some offset' =>
      cases maps.byteSize member with
      | none => simp
      | some size' =>
        by_cases hwidth : size' = 1 ∨ size' = 2 ∨ size' = 4 ∨ size' = 8
        · simp only [if_pos hwidth, Option.some.injEq, StructField.mk.injEq]
          constructor
          · rintro ⟨rfl, rfl, rfl⟩
            exact ⟨rfl, rfl, rfl, hwidth⟩
          · exact fun h => ⟨h.1, h.2.1, h.2.2.1⟩
        · simp only [if_neg hwidth, Option.some.injEq, reduceCtorEq, false_iff]
          rintro ⟨-, -, rfl, hwidth'⟩
          exact hwidth hwidth'

theorem byteSize_eq_some {units : List (List Entry)} {member : Entry} {size : ℕ} :
    (TypeMaps.ofUnits units).byteSize member = some size ↔
      ∃ offset, member.typeRef = some offset ∧ Leads units.flatten 10 offset size := by
  rw [TypeMaps.byteSize, Option.bind_eq_some_iff]
  simp only [chase_eq_some]

theorem ownSize_eq_some {unit : List Entry} {member : Entry} {size : ℕ} :
    ownSize unit member = some size ↔
      ∃ offset, member.typeRef = some offset ∧ Leads unit 10 offset size := by
  rw [ownSize, byteSize_eq_some, List.flatten_singleton]

/-- The members traced. -/
theorem mem_tracedStructs {units : List (List Entry)} {o : Origin} :
    (∃ s ∈ tracedStructs units, o ∈ s.fields) ↔ o.unit ∈ units ∧
      o.member ∈ structMembers false o.unit ∧
      (TypeMaps.ofUnits units).field o.member = some o.field := by
  rw [tracedStructs, mem_fields_scan]
  simp only [Option.map_eq_some_iff]
  constructor
  · rintro ⟨unit, hunit, member, hmember, f, hf, rfl⟩
    exact ⟨hunit, hmember, hf⟩
  · rintro ⟨hunit, hmember, hf⟩
    exact ⟨o.unit, hunit, o.member, hmember, o.field, hf, rfl⟩

/-- Each field has its own unit's size just when other units disturb no member. -/
theorem ownSizes_iff_undisturbed (units : List (List Entry)) :
    OwnSizes units ↔ Undisturbed units := by
  constructor
  · intro h unit hunit member hmember hname hplaced offset href size hwidth hleads
    obtain ⟨name, hname⟩ := Option.isSome_iff_exists.mp hname
    obtain ⟨place, hplaced⟩ := Option.isSome_iff_exists.mp hplaced
    have hfield : (TypeMaps.ofUnits units).field member = some ⟨name, place, size⟩ :=
      field_eq_some.mpr ⟨hname, hplaced, byteSize_eq_some.mpr ⟨offset, href, hleads⟩, hwidth⟩
    obtain ⟨s, hs, ho⟩ := mem_tracedStructs.mpr
      (⟨hunit, hmember, hfield⟩ : (Origin.mk unit member _).unit ∈ units ∧ _ ∧ _)
    obtain ⟨offset', href', hleads'⟩ := ownSize_eq_some.mp (h s hs _ ho)
    obtain rfl := Option.some.inj (href'.symm.trans href)
    exact hleads'
  · intro h s hs o ho
    obtain ⟨hunit, hmember, hfield⟩ := mem_tracedStructs.mp ⟨s, hs, ho⟩
    obtain ⟨hname, hplaced, hsize, hwidth⟩ := field_eq_some.mp hfield
    obtain ⟨offset, href, hleads⟩ := byteSize_eq_some.mp hsize
    exact ownSize_eq_some.mpr ⟨offset, href, h o.unit hunit o.member hmember (by rw [hname]; rfl)
      (by rw [hplaced]; rfl) offset href o.field.byteSize hwidth hleads⟩

/-- A unit on its own is undisturbed. -/
theorem undisturbed_of_length_le_one {units : List (List Entry)} (h : units.length ≤ 1) :
    Undisturbed units := by
  intro unit hunit member _ _ _ offset _ size _ hleads
  obtain ⟨unit', rfl⟩ := List.length_eq_one_iff.mp
    (Nat.le_antisymm h (List.length_pos_of_mem hunit))
  obtain rfl := List.mem_singleton.mp hunit
  rwa [List.flatten_singleton] at hleads

/-- **Each field has its own unit's size just when other units disturb no member**, in particular
in a file of one unit. -/
theorem ownSizes_iff (units : List (List Entry)) :
    (OwnSizes units ↔ Undisturbed units) ∧ (units.length ≤ 1 → OwnSizes units) :=
  ⟨ownSizes_iff_undisturbed units,
    fun h => (ownSizes_iff_undisturbed units).mpr (undisturbed_of_length_le_one h)⟩

/-- Two units with a type at offset 0x40: of four bytes in the first, where a structure has a member
of it, and of eight in the second. -/
def sharedOffset : List (List Entry) :=
  [[⟨0x2a, .structureType, none, none, some "event", some 0, none⟩,
    ⟨0x30, .member, none, some 0x40, some "pid", none, some 0⟩,
    ⟨0x40, .other, some 4, none, some "__u32", none, none⟩],
   [⟨0x40, .other, some 8, none, some "__u64", none, none⟩]]

example : extractStructs sharedOffset = [⟨"event", true, [⟨"pid", 0, 8⟩]⟩] := by decide

/-- **A later unit can overwrite a size.** -/
theorem not_ownSizes : ¬∀ units, OwnSizes units := by
  intro h
  have hwide := h sharedOffset
  revert hwide
  simp only [OwnSizes]
  decide

end BpfVerifier.Elf
