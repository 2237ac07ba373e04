import BpfVerifier.Cfg.Paths
import BpfVerifier.Elf.Parser

/-!
# Properties/Decoding — which words the instruction loop accounts for

The loop passes over a word whose register nibbles name no registers, and nothing after it then
stands where `buildPcMap` puts it.  `accounts_iff` says when every word is accounted for.
-/

namespace BpfVerifier.Elf

/-! ## What the loop is to do -/

/-- The words an instruction was decoded from. -/
def wordsTaken (insn : BpfInsn) : ℕ := if insn.opcode = .ldImm64 ∧ insn.imm64.isSome then 2 else 1

/-- The instruction that starts at a slot of the words. -/
def decodeAt (words : List (BitVec 64)) (slot : ℕ) : Option BpfInsn :=
  (words[slot]?.bind BpfInsn.decode).map fun insn =>
    if insn.opcode = .ldImm64 then (words[slot + 1]?).elim insn (withHigh insn) else insn

/-- A byte offset is relocated to a target. -/
def SectionEnv.Relocates (env : SectionEnv) (offset : ℕ) (target : RelocTarget) : Prop :=
  env.relocOffsets.get offset = some target ∨
    target = .coreFieldOffset ∧ ∃ set, env.coreRelos = some set ∧ ∃ o ∈ set, o.toNat = offset

/-- The slot `build_pc_map` gives an instruction. -/
def slotOf (l : List BpfInsn) (i : ℕ) : ℕ := (buildPcMap l).1.getD i 0

/-- **A programme accounts for the words of its section.** -/
structure Accounts (env : SectionEnv) (words : List (BitVec 64)) (p : Program) : Prop where
  total : (p.instructions.map wordsTaken).sum = words.length
  decoded : ∀ i insn, p.instructions[i]? = some insn →
    decodeAt words (slotOf p.instructions i) = some insn
  /-- A word belongs to an instruction. -/
  covered : ∀ slot < words.length, ∃ i insn, p.instructions[i]? = some insn ∧
    slotOf p.instructions i ≤ slot ∧ slot < slotOf p.instructions i + wordsTaken insn
  relocated : ∀ i target, p.relocations.get i = some target →
    ∃ insn, p.instructions[i]? = some insn ∧ insn.opcode = .ldImm64 ∧
      env.Relocates (8 * slotOf p.instructions i) target

/-! ## The condition -/

/-- Reading two words where the first byte is 0x18 and one elsewhere, every first word names
registers. -/
def Aligned : List (BitVec 64) → Prop
  | [] => True
  | [raw] => NamesRegs raw
  | raw :: raw₂ :: rest =>
    NamesRegs raw ∧ if opcodeByte raw = 0x18 then Aligned rest else Aligned (raw₂ :: rest)

/-- A byte offset from 2^32 on, without a relocation of its own, does not look like a CO-RE offset
when cut to 32 bits. -/
def SectionEnv.CoreFits (env : SectionEnv) (offset : ℕ) : Prop :=
  2 ^ 32 ≤ offset → env.relocOffsets.get offset = none →
    ∀ set, env.coreRelos = some set → BitVec.ofNat 32 offset ∉ set

/-- …at each LD_IMM64 of the words from a slot on. -/
def LoadsFit (env : SectionEnv) : ℕ → List (BitVec 64) → Prop
  | _, [] => True
  | _, [_] => True
  | slot, raw :: raw₂ :: rest =>
    if opcodeByte raw = 0x18 then env.CoreFits (8 * slot) ∧ LoadsFit env (slot + 2) rest
    else LoadsFit env (slot + 1) (raw₂ :: rest)

theorem Aligned.namesRegs {raw : BitVec 64} {rest : List (BitVec 64)} (h : Aligned (raw :: rest)) :
    NamesRegs raw := by
  cases rest with
  | nil => exact h
  | cons raw₂ rest => exact h.1

/-! ## Slots -/

/-- The slots before an instruction. -/
def startOf (l : List BpfInsn) (i : ℕ) : ℕ := ((l.take i).map slots).sum

theorem slotOf_eq {l : List BpfInsn} {i : ℕ} (hi : i < l.length) : slotOf l i = startOf l i :=
  getD_buildPcMap ⟨l, [], .empty⟩ hi

theorem startOf_append {l : List BpfInsn} {insn : BpfInsn} {i : ℕ} (hi : i ≤ l.length) :
    startOf (l ++ [insn]) i = startOf l i := by
  rw [startOf, startOf, List.take_append_of_le_length hi]

theorem startOf_length (l : List BpfInsn) : startOf l l.length = (l.map slots).sum := by
  rw [startOf, List.take_length]

/-- An instruction after the last. -/
theorem getElem?_append_singleton {l : List BpfInsn} {insn x : BpfInsn} {i : ℕ} :
    (l ++ [insn])[i]? = some x ↔ l[i]? = some x ∨ i = l.length ∧ x = insn := by
  rw [List.getElem?_append]
  split
  · next hi =>
    constructor
    · exact Or.inl
    · rintro (h | ⟨rfl, -⟩)
      · exact h
      · omega
  · next hi =>
    have hnone : l[i]? = none := List.getElem?_eq_none (Nat.le_of_not_lt hi)
    rw [hnone]
    by_cases heq : i = l.length
    · simp [heq, eq_comm]
    · have hpos : i - l.length ≠ 0 := by omega
      simp [heq, hpos]

/-- Instructions that stand in the words where `startOf` puts them and take all words before a
slot. -/
structure Spans (words : List (BitVec 64)) (slot : ℕ) (l : List BpfInsn) : Prop where
  decoded : ∀ i insn, l[i]? = some insn → decodeAt words (startOf l i) = some insn
  covered : ∀ s < slot, ∃ i insn, l[i]? = some insn ∧ startOf l i ≤ s ∧
    s < startOf l i + wordsTaken insn

theorem Spans.push {words : List (BitVec 64)} {slot : ℕ} {l : List BpfInsn} {insn : BpfInsn}
    (h : Spans words slot l) (hslots : (l.map slots).sum = slot)
    (hinsn : decodeAt words slot = some insn) :
    Spans words (slot + wordsTaken insn) (l ++ [insn]) := by
  have hlast : startOf (l ++ [insn]) l.length = slot := by
    rw [startOf_append le_rfl, startOf_length, hslots]
  refine ⟨fun i x hx => ?_, fun s hs => ?_⟩
  · rcases getElem?_append_singleton.mp hx with hx | ⟨rfl, rfl⟩
    · rw [startOf_append (Nat.le_of_lt (List.getElem?_eq_some_iff.mp hx).1)]
      exact h.decoded i x hx
    · rw [hlast]
      exact hinsn
  · by_cases hlt : s < slot
    · obtain ⟨i, x, hx, hle, hlt⟩ := h.covered s hlt
      have hi := Nat.le_of_lt (List.getElem?_eq_some_iff.mp hx).1
      exact ⟨i, x, getElem?_append_singleton.mpr (Or.inl hx), by rwa [startOf_append hi],
        by rwa [startOf_append hi]⟩
    · exact ⟨l.length, insn, getElem?_append_singleton.mpr (Or.inr ⟨rfl, rfl⟩), by omega, by omega⟩

/-! ## Relocations -/

/-- **The target found is the right one just when the offset fits.** -/
theorem SectionEnv.coreFits_iff {env : SectionEnv} {offset : ℕ} :
    env.CoreFits offset ↔ ∀ target, env.relocAt offset = some target →
      env.Relocates offset target := by
  unfold CoreFits relocAt Relocates
  cases helf : env.relocOffsets.get offset with
  | some target => simp
  | none =>
    cases hcore : env.coreRelos with
    | none => simp
    | some set =>
      by_cases hmem : BitVec.ofNat 32 offset ∈ set
      · simp only [Option.any_some, hmem, decide_true, if_true, Option.some.injEq, reduceCtorEq,
          false_or]
        constructor
        · rintro hfits target rfl
          have hlt : offset < 2 ^ 32 := by
            by_contra hge
            exact hfits (by omega) trivial set rfl hmem
          exact ⟨rfl, set, rfl, _, hmem, Nat.mod_eq_of_lt hlt⟩
        · intro h hge
          obtain ⟨-, set', -, o, -, ho⟩ := h _ rfl
          have := o.isLt
          omega
      · simp [hmem]

/-- Every relocation recorded is of an LD_IMM64 at the relocated byte offset. -/
def Placed (env : SectionEnv) (l : List BpfInsn) (m : AssocMap ℕ RelocTarget) : Prop :=
  ∀ i target, m.get i = some target → ∃ insn, l[i]? = some insn ∧ insn.opcode = .ldImm64 ∧
    env.Relocates (8 * startOf l i) target

section

variable {env : SectionEnv} {l : List BpfInsn} {m : AssocMap ℕ RelocTarget} {insn : BpfInsn}

theorem placed_push (hkeys : ∀ i target, m.get i = some target → i < l.length) :
    Placed env (l ++ [insn]) m ↔ Placed env l m := by
  refine forall_congr' fun i => forall_congr' fun target => forall_congr' fun hget => ?_
  have hi := hkeys i target hget
  rw [startOf_append (Nat.le_of_lt hi), List.getElem?_append_left hi]

/-- A relocation recorded for the instruction after the last. -/
theorem placed_insert (hkeys : ∀ i target, m.get i = some target → i < l.length)
    (hload : insn.opcode = .ldImm64) {target : RelocTarget} :
    Placed env (l ++ [insn]) (m.insert l.length target) ↔
      Placed env l m ∧ env.Relocates (8 * (l.map slots).sum) target := by
  have hlast : startOf (l ++ [insn]) l.length = (l.map slots).sum := by
    rw [startOf_append le_rfl, startOf_length]
  constructor
  · intro h
    have hpush : Placed env (l ++ [insn]) m ↔ Placed env l m := placed_push hkeys
    refine ⟨hpush.mp fun i t hget => ?_, ?_⟩
    · refine h i t ?_
      rw [AssocMap.get_insert_of_ne m target (Nat.ne_of_lt (hkeys i t hget))]
      exact hget
    · obtain ⟨-, -, -, hreloc⟩ := h l.length target (AssocMap.get_insert_self m l.length target)
      rwa [hlast] at hreloc
  · rintro ⟨hplaced, hreloc⟩ i t hget
    rw [AssocMap.get_insert] at hget
    split at hget
    · next heq =>
      obtain rfl := heq
      obtain rfl := Option.some.inj hget
      exact ⟨insn, getElem?_append_singleton.mpr (Or.inr ⟨rfl, rfl⟩), hload, by rwa [hlast]⟩
    · exact (placed_push hkeys).mpr hplaced i t hget

end

/-! ## The cursors -/

/-- **The cursors of the loop agree**: so many slots are read, and as many are taken. -/
structure Cursor (env : SectionEnv) (slot : ℕ) (d : Decoding) : Prop where
  offset : d.byteOffset = 8 * slot
  index : d.insnIdx = d.instructions.length
  sum : (d.instructions.map slots).sum = slot
  keys : ∀ i target, d.relocations.get i = some target → i < d.instructions.length
  pending : ∀ o, 8 * slot ≤ o → d.relocOffsets.get o = env.relocOffsets.get o

theorem cursor_start (env : SectionEnv) : Cursor env 0 env.start where
  offset := rfl
  index := rfl
  sum := rfl
  keys i target h := by simp [SectionEnv.start] at h
  pending _ _ := rfl

section

variable {env : SectionEnv} {slot : ℕ} {d : Decoding} {addr : BitVec 64} {insn : BpfInsn}

/-- What a relocation changes. -/
theorem Cursor.relocate (h : Cursor env slot d) :
    (d.relocate env).relocations = (match env.relocAt (8 * slot) with
      | some target => d.relocations.insert d.instructions.length target
      | none => d.relocations) ∧
    (d.relocate env).instructions = d.instructions ∧
    (d.relocate env).byteOffset = 8 * slot ∧
    (d.relocate env).insnIdx = d.instructions.length ∧
    ∀ o, 8 * slot < o → (d.relocate env).relocOffsets.get o = env.relocOffsets.get o := by
  have hpending := h.pending (8 * slot) le_rfl
  rw [Decoding.relocate, SectionEnv.relocAt, h.offset, h.index, hpending]
  cases env.relocOffsets.get (8 * slot) with
  | some target =>
    refine ⟨rfl, rfl, rfl, rfl, fun o ho => ?_⟩
    rw [AssocMap.get_remove_of_ne d.relocOffsets (Nat.ne_of_gt ho)]
    exact h.pending o (Nat.le_of_lt ho)
  | none =>
    dsimp only
    have hrest (o : ℕ) (ho : 8 * slot < o) : d.relocOffsets.get o = env.relocOffsets.get o :=
      h.pending o (Nat.le_of_lt ho)
    split
    · exact ⟨rfl, rfl, rfl, rfl, hrest⟩
    · exact ⟨rfl, rfl, h.offset, h.index, hrest⟩

/-- An instruction of one word. -/
theorem Cursor.push (h : Cursor env slot d) (hslots : slots insn = 1) :
    Cursor env (slot + 1) (d.push env addr insn).advance where
  offset := by simp [Decoding.push, Decoding.advance, h.offset, Nat.mul_add]
  index := by simp [Decoding.push, Decoding.advance, h.index]
  sum := by simp [Decoding.push, Decoding.advance, h.sum, hslots]
  keys i target hget := by
    have hi := h.keys i target hget
    simp [Decoding.push, Decoding.advance]
    omega
  pending o ho := h.pending o (by omega)

/-- An LD_IMM64 of two words. -/
theorem Cursor.pushLoad (h : Cursor env slot d) (hslots : slots insn = 2) :
    Cursor env (slot + 2) (((d.relocate env).advance.push env addr insn).advance) := by
  obtain ⟨hrel, hinsns, hoffset, hidx, hpending⟩ := h.relocate
  refine ⟨?_, ?_, ?_, fun i target hget => ?_, fun o ho => hpending o (by omega)⟩
  · simp [Decoding.push, Decoding.advance, hoffset, Nat.mul_add]
  · simp [Decoding.push, Decoding.advance, hidx, hinsns]
  · simp [Decoding.push, Decoding.advance, hinsns, h.sum, hslots]
  · have hget' : (d.relocate env).relocations.get i = some target := hget
    rw [hrel] at hget'
    have hi : i ≤ d.instructions.length := by
      split at hget'
      · rw [AssocMap.get_insert] at hget'
        split at hget'
        · omega
        · exact Nat.le_of_lt (h.keys i target hget')
      · exact Nat.le_of_lt (h.keys i target hget')
    simp [Decoding.push, Decoding.advance, hinsns]
    omega

/-- Its relocation is placed just when its offset fits. -/
theorem Cursor.placed_load (h : Cursor env slot d) (hload : insn.opcode = .ldImm64) :
    Placed env (d.instructions ++ [insn]) (d.relocate env).relocations ↔
      Placed env d.instructions d.relocations ∧ env.CoreFits (8 * slot) := by
  rw [h.relocate.1, SectionEnv.coreFits_iff]
  cases env.relocAt (8 * slot) with
  | none => simp [placed_push h.keys]
  | some target => simp [placed_insert h.keys hload, h.sum]

end

/-! ## The loop -/

/-- The decoded opcode is LD_IMM64 just when the first byte is 0x18. -/
theorem opcode_eq_ldImm64 {raw : BitVec 64} {insn : BpfInsn}
    (h : BpfInsn.decode raw = some insn) : insn.opcode = .ldImm64 ↔ opcodeByte raw = 0x18 := by
  rw [BpfInsn.opcode_of_decode h, Opcode.decode_eq_ldImm64]

theorem namesRegs_of_decode {raw : BitVec 64} {insn : BpfInsn}
    (h : BpfInsn.decode raw = some insn) : NamesRegs raw := by
  rw [← BpfInsn.decode_isSome, h]
  rfl

/-- An instruction decoded from one word has no 64-bit immediate. -/
theorem imm64_of_decode {raw : BitVec 64} {insn : BpfInsn}
    (h : BpfInsn.decode raw = some insn) : insn.imm64 = none := by
  unfold BpfInsn.decode at h
  split at h
  · obtain rfl := Option.some.inj h
    rfl
  · cases h

theorem wordsTaken_of_decode {raw : BitVec 64} {insn : BpfInsn}
    (h : BpfInsn.decode raw = some insn) : wordsTaken insn = 1 := by
  simp [wordsTaken, imm64_of_decode h]

section

variable {insn : BpfInsn}

theorem wordsTaken_withHigh (hload : insn.opcode = .ldImm64) (raw₂ : BitVec 64) :
    wordsTaken (withHigh insn raw₂) = 2 := by
  simp [wordsTaken, withHigh, hload]

theorem slots_withHigh (hload : insn.opcode = .ldImm64) (raw₂ : BitVec 64) :
    slots (withHigh insn raw₂) = 2 := by
  simp [slots, withHigh, hload]

theorem slots_of_ne (hother : insn.opcode ≠ .ldImm64) : slots insn = 1 := by
  simp [slots, hother]

end

/-! ## The words of one instruction -/

theorem aligned_load {raw raw₂ : BitVec 64} {rest : List (BitVec 64)} {insn : BpfInsn}
    (hdecode : BpfInsn.decode raw = some insn) (hload : insn.opcode = .ldImm64) :
    Aligned (raw :: raw₂ :: rest) ↔ Aligned rest := by
  simp [Aligned, (opcode_eq_ldImm64 hdecode).mp hload, namesRegs_of_decode hdecode]

section

variable {raw : BitVec 64} {rest : List (BitVec 64)} {insn : BpfInsn}

theorem aligned_other (hdecode : BpfInsn.decode raw = some insn) (hother : insn.opcode ≠ .ldImm64) :
    Aligned (raw :: rest) ↔ Aligned rest := by
  have hregs := namesRegs_of_decode hdecode
  cases rest with
  | nil => simp [Aligned, hregs]
  | cons raw₂ rest =>
    simp only [Aligned, if_neg (mt (opcode_eq_ldImm64 hdecode).mpr hother), hregs, true_and]

theorem loadsFit_other {env : SectionEnv} {slot : ℕ} (hdecode : BpfInsn.decode raw = some insn)
    (hother : insn.opcode ≠ .ldImm64) :
    LoadsFit env slot (raw :: rest) ↔ LoadsFit env (slot + 1) rest := by
  cases rest with
  | nil => simp [LoadsFit]
  | cons raw₂ rest =>
    simp only [LoadsFit, if_neg (mt (opcode_eq_ldImm64 hdecode).mpr hother)]

/-- Words that do not decode do not stand in aligned ones. -/
theorem not_aligned_of_decode (hdecode : BpfInsn.decode raw = none) : ¬Aligned (raw :: rest) :=
  fun h => BpfInsn.decode_eq_none.mp hdecode h.namesRegs

end

/-- The words taken by the instructions decoded so far. -/
def Decoding.taken (d : Decoding) : ℕ := (d.instructions.map wordsTaken).sum

@[simp] theorem taken_advance (d : Decoding) : d.advance.taken = d.taken := rfl

@[simp] theorem taken_push (d : Decoding) (env : SectionEnv) (addr : BitVec 64) (insn : BpfInsn) :
    (d.push env addr insn).taken = d.taken + wordsTaken insn := by
  simp [Decoding.taken, Decoding.push]

theorem instructions_relocate (d : Decoding) (env : SectionEnv) :
    (d.relocate env).instructions = d.instructions := by
  unfold Decoding.relocate
  split
  · rfl
  · split <;> rfl

@[simp] theorem taken_relocate (d : Decoding) (env : SectionEnv) :
    (d.relocate env).taken = d.taken := by
  rw [Decoding.taken, instructions_relocate, Decoding.taken]

/-- **No word is taken twice, and every word is taken just when each decodes where it stands.** -/
theorem total_decodeWords (env : SectionEnv) (words : List (BitVec 64)) (d : Decoding) :
    (decodeWords env words d).taken ≤ d.taken + words.length ∧
      ((decodeWords env words d).taken = d.taken + words.length ↔ Aligned words) := by
  fun_induction decodeWords env words d with
  | case1 d => simp [Aligned]
  | case2 raw rest d hdecode ih =>
    rw [taken_advance] at ih
    refine ⟨by simp only [List.length_cons]; omega, iff_of_false ?_ (not_aligned_of_decode hdecode)⟩
    simp only [List.length_cons]
    omega
  | case3 raw d addr insn hdecode hload raw₂ rest ih =>
    rw [aligned_load hdecode hload, ← ih.2]
    simp only [taken_advance, taken_push, taken_relocate, wordsTaken_withHigh hload,
      List.length_cons] at ih ⊢
    omega
  | case4 raw d addr insn hdecode hload =>
    simp [Aligned, wordsTaken_of_decode hdecode, namesRegs_of_decode hdecode]
  | case5 raw rest d addr insn hdecode hother ih =>
    rw [aligned_other hdecode hother, ← ih.2]
    simp only [taken_advance, taken_push, wordsTaken_of_decode hdecode, List.length_cons] at ih ⊢
    omega

/-- A first word is the word at the slot it is read from. -/
theorem getElem?_of_drop {words rest : List (BitVec 64)} {slot : ℕ} {raw : BitVec 64}
    (h : words.drop slot = raw :: rest) :
    words[slot]? = some raw ∧ words.drop (slot + 1) = rest := by
  constructor
  · rw [← Nat.add_zero slot, ← List.getElem?_drop, h]
    rfl
  · rw [← List.drop_drop, h]
    rfl

/-- **The instructions stand in the words where `build_pc_map` puts them.** -/
theorem spans_decodeWords {env : SectionEnv} {words rest : List (BitVec 64)} {d : Decoding}
    {slot : ℕ} (hcursor : Cursor env slot d) (hrest : words.drop slot = rest)
    (haligned : Aligned rest) (h : Spans words slot d.instructions) :
    Spans words (slot + rest.length) (decodeWords env rest d).instructions := by
  fun_induction decodeWords env rest d generalizing slot with
  | case1 d => exact h
  | case2 raw rest d hdecode ih =>
    exact absurd haligned (not_aligned_of_decode hdecode)
  | case3 raw d addr insn hdecode hload raw₂ rest =>
    rename_i ih
    obtain ⟨hraw, hdrop⟩ := getElem?_of_drop hrest
    obtain ⟨hraw₂, hdrop₂⟩ := getElem?_of_drop hdrop
    have hat : decodeAt words slot = some (withHigh insn raw₂) := by
      simp [decodeAt, hraw, hdecode, hload, hraw₂]
    have hpush := h.push hcursor.sum hat
    rw [wordsTaken_withHigh hload] at hpush
    have hspans := ih (hcursor.pushLoad (slots_withHigh hload raw₂)) hdrop₂
      ((aligned_load hdecode hload).mp haligned)
      (by simpa [Decoding.push, Decoding.advance, instructions_relocate] using hpush)
    simpa [Nat.add_assoc, Nat.add_comm 2] using hspans
  | case4 raw d addr insn hdecode =>
    rename_i hload
    obtain ⟨hraw, hdrop⟩ := getElem?_of_drop hrest
    have hnext : words[slot + 1]? = none := by
      simpa [List.drop_eq_nil_iff] using hdrop
    have hat : decodeAt words slot = some insn := by
      simp [decodeAt, hraw, hdecode, hnext]
    have hpush := h.push hcursor.sum hat
    rwa [wordsTaken_of_decode hdecode] at hpush
  | case5 raw rest d addr insn hdecode hother =>
    rename_i ih
    obtain ⟨hraw, hdrop⟩ := getElem?_of_drop hrest
    have hat : decodeAt words slot = some insn := by
      simp [decodeAt, hraw, hdecode, hother]
    have hpush := h.push hcursor.sum hat
    rw [wordsTaken_of_decode hdecode] at hpush
    have hspans := ih (hcursor.push (slots_of_ne hother)) hdrop
      ((aligned_other hdecode hother).mp haligned) hpush
    simpa [Nat.add_assoc, Nat.add_comm 1] using hspans

/-- **The relocations stand at their instructions just when every LD_IMM64 fits.** -/
theorem placed_decodeWords {env : SectionEnv} {rest : List (BitVec 64)} {d : Decoding} {slot : ℕ}
    (hcursor : Cursor env slot d) (haligned : Aligned rest) :
    Placed env (decodeWords env rest d).instructions (decodeWords env rest d).relocations ↔
      Placed env d.instructions d.relocations ∧ LoadsFit env slot rest := by
  fun_induction decodeWords env rest d generalizing slot with
  | case1 d => simp [LoadsFit]
  | case2 raw rest d hdecode ih =>
    exact absurd haligned (not_aligned_of_decode hdecode)
  | case3 raw d addr insn hdecode hload raw₂ rest =>
    rename_i ih
    have hbyte := (opcode_eq_ldImm64 hdecode).mp hload
    have haligned' := (aligned_load hdecode hload).mp haligned
    have hload' : (withHigh insn raw₂).opcode = .ldImm64 := hload
    rw [ih (hcursor.pushLoad (slots_withHigh hload raw₂)) haligned', LoadsFit, if_pos hbyte,
      ← and_assoc, ← hcursor.placed_load hload']
    simp [Decoding.push, Decoding.advance, instructions_relocate]
  | case4 raw d addr insn hdecode =>
    rename_i hload
    simpa [Decoding.push, Decoding.advance, LoadsFit] using placed_push hcursor.keys
  | case5 raw rest d addr insn hdecode hother =>
    rename_i ih
    rw [ih (hcursor.push (slots_of_ne hother)) ((aligned_other hdecode hother).mp haligned),
      loadsFit_other hdecode hother]
    exact and_congr_left' (placed_push hcursor.keys)

/-! ## Every word -/

/-- **The loop accounts for every word just when each decodes where it stands** and no LD_IMM64 from
4 GiB on is taken for a CO-RE relocation of a smaller offset. -/
theorem accounts_iff (env : SectionEnv) (words : List (BitVec 64)) :
    Accounts env words (env.program words) ↔ Aligned words ∧ LoadsFit env 0 words := by
  have htotal := (total_decodeWords env words env.start).2
  have hempty : Spans words 0 env.start.instructions :=
    ⟨fun i insn h => by simp [SectionEnv.start] at h, fun s hs => by omega⟩
  have hstart : Placed env env.start.instructions env.start.relocations :=
    fun i target h => by simp [SectionEnv.start] at h
  have hslot {i : ℕ} {insn : BpfInsn} (h : (env.program words).instructions[i]? = some insn) :
      slotOf (env.program words).instructions i = startOf (env.program words).instructions i :=
    slotOf_eq (List.getElem?_eq_some_iff.mp h).1
  have hplaced (haligned : Aligned words) :
      Placed env (env.program words).instructions (env.program words).relocations ↔
        LoadsFit env 0 words :=
    (placed_decodeWords (cursor_start env) haligned).trans (and_iff_right hstart)
  constructor
  · intro h
    have haligned : Aligned words := htotal.mp (by
      simpa [Decoding.taken, SectionEnv.start, SectionEnv.program] using h.total)
    refine ⟨haligned, (hplaced haligned).mp fun i target hget => ?_⟩
    obtain ⟨insn, hinsn, hload, hreloc⟩ := h.relocated i target hget
    exact ⟨insn, hinsn, hload, by rwa [← hslot hinsn]⟩
  · rintro ⟨haligned, hfits⟩
    have hspans := spans_decodeWords (cursor_start env) (List.drop_zero) haligned hempty
    rw [Nat.zero_add] at hspans
    refine ⟨?_, fun i insn hinsn => ?_, fun slot hslotlt => ?_, fun i target hget => ?_⟩
    · simpa [Decoding.taken, SectionEnv.start, SectionEnv.program] using htotal.mpr haligned
    · rw [hslot hinsn]
      exact hspans.decoded i insn hinsn
    · obtain ⟨i, insn, hinsn, hle, hlt⟩ := hspans.covered slot hslotlt
      exact ⟨i, insn, hinsn, by rwa [hslot hinsn], by rwa [hslot hinsn]⟩
    · obtain ⟨insn, hinsn, hload, hreloc⟩ := (hplaced haligned).mpr hfits i target hget
      exact ⟨insn, hinsn, hload, by rwa [hslot hinsn]⟩

/-- `mov r11, 0` and `exit`: the first names no register. -/
def namesR11 : List (BitVec 64) := [0x0bb7, 0x95]

/-- A section without relocations or line table. -/
def SectionEnv.bare : SectionEnv := ⟨0, .empty, none, fun _ => none⟩

/-- **A word can be passed over.** -/
theorem not_accounts : ¬∀ (env : SectionEnv) (words : List (BitVec 64)),
    Accounts env words (env.program words) := by
  intro h
  have htotal := (h .bare namesR11).total
  revert htotal
  decide

end BpfVerifier.Elf
