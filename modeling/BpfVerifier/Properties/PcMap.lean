import BpfVerifier.Cfg.Paths

/-!
# Properties/PcMap — the maps between instructions and raw slots

`build_pc_map` lays the instructions out with two slots for an LD_IMM64.  Its two maps are inverse
to each other, and a jump resolves exactly to the instruction that starts where it leads
(`buildPcMap_exact`).
-/

namespace BpfVerifier

open Placement

/-! ## What the maps are to be -/

/-- The slot a jump leads to. -/
def rawTarget (raw : ℕ) (offset : BitVec 16) : ℤ := raw + 1 + offset.toInt

/-- A slot at which no instruction starts: before the first, past the last, or the second one of an
LD_IMM64. -/
def OffStart (instructions : List BpfInsn) (collapsedToRaw : List ℕ) (slot : ℤ) : Prop :=
  slot < 0 ∨ total slots instructions ≤ slot ∨
    ∃ (t : ℕ) (insn : BpfInsn) (raw : ℕ), instructions[t]? = some insn ∧
      insn.opcode = .ldImm64 ∧ collapsedToRaw[t]? = some raw ∧ slot = raw + 1

/-- **Maps that are exact.** -/
structure PcMapExact (instructions : List BpfInsn) (collapsedToRaw : List ℕ)
    (rawToCollapsed : AssocMap ℕ ℕ) : Prop where
  length : collapsedToRaw.length = instructions.length
  first : instructions ≠ [] → collapsedToRaw[0]? = some 0
  increasing : collapsedToRaw.Pairwise (· < ·)
  /-- Each is the inverse of the other, with no other keys. -/
  inverse : ∀ raw idx, rawToCollapsed.get raw = some idx ↔ collapsedToRaw[idx]? = some raw
  resolved : ∀ pc raw, collapsedToRaw[pc]? = some raw → ∀ offset t,
    resolveBranchTarget pc offset collapsedToRaw rawToCollapsed = some t ↔
      ∃ raw', collapsedToRaw[t]? = some raw' ∧ (raw' : ℤ) = rawTarget raw offset
  unresolved : ∀ pc raw, collapsedToRaw[pc]? = some raw → ∀ offset,
    resolveBranchTarget pc offset collapsedToRaw rawToCollapsed = none ↔
      OffStart instructions collapsedToRaw (rawTarget raw offset)

/-! ## The starts -/

theorem slots_pos (insn : BpfInsn) : 0 < slots insn := by
  unfold slots
  split <;> decide

theorem slots_le (insn : BpfInsn) : slots insn ≤ 2 := by
  unfold slots
  split <;> decide

theorem eq_ldImm64_of_slots {insn : BpfInsn} (h : 1 < slots insn) : insn.opcode = .ldImm64 := by
  by_contra hne
  rw [slots, if_neg hne] at h
  exact Nat.lt_irrefl 1 h

section

variable (l : List BpfInsn)

/-- The starts are those of a layout by slots. -/
theorem buildPcMap_fst : (buildPcMap l).1 = (List.range l.length).map (start slots l) :=
  (pcMapOf_buildPcMap ⟨l, [], .empty⟩).1

variable {l} {pc raw t : ℕ} {offset : BitVec 16}

theorem getElem?_buildPcMap {i : ℕ} :
    (buildPcMap l).1[i]? = some raw ↔ i < l.length ∧ start slots l i = raw := by
  rw [buildPcMap_fst, List.getElem?_map]
  by_cases hi : i < l.length
  · simp [hi]
  · simp [hi]

/-- Every instruction passed is found at its start. -/
def Found (l : List BpfInsn) (n : ℕ) (acc : List ℕ × AssocMap ℕ ℕ × ℕ) : Prop :=
  PcMapOf l n acc ∧ ∀ t < n, acc.2.1.get (start slots l t) = some t

/-- One more instruction is entered at a slot of its own. -/
theorem found_step {n : ℕ} {acc : List ℕ × AssocMap ℕ ℕ × ℕ} (hn : n < l.length)
    (h : Found l n acc) : Found l (n + 1) (pcMapStep acc (l[n], n)) := by
  refine ⟨pcMapOf_step h.1 hn, fun t ht => ?_⟩
  have hnext : acc.2.2 = start slots l n := h.1.next
  simp only [pcMapStep]
  rw [AssocMap.get_insert, hnext]
  rcases Nat.lt_succ_iff_lt_or_eq.mp ht with hlt | rfl
  · have hne : start slots l t ≠ start slots l n :=
      Nat.ne_of_lt (start_lt_start (fun insn _ => slots_pos insn) hlt (Nat.le_of_lt hn))
    rw [if_neg hne]
    exact h.2 t hlt
  · rw [if_pos rfl]

theorem found_buildPcMap : ∀ t < l.length, (buildPcMap l).2.get (start slots l t) = some t := by
  have hstart : Found l 0 ([], .empty, 0) :=
    ⟨⟨rfl, fun raw t ht => by simp at ht, by simp⟩, fun t ht => absurd ht (Nat.not_lt_zero t)⟩
  have hfound : Found l l.length (l.zipIdx.foldl pcMapStep ([], .empty, 0)) :=
    foldl_zipIdx hstart fun n hn acc h => found_step hn h
  exact hfound.2

/-- **The inverse map finds the instruction that starts at a slot**, and nothing else. -/
theorem get_buildPcMap : (buildPcMap l).2.get raw = some t ↔ (buildPcMap l).1[t]? = some raw := by
  rw [getElem?_buildPcMap]
  constructor
  · exact (pcMapOf_buildPcMap ⟨l, [], .empty⟩).2 raw t
  · rintro ⟨ht, rfl⟩
    exact found_buildPcMap t ht

/-! ## Resolving a jump -/

theorem resolveBranchTarget_eq (hpc : (buildPcMap l).1[pc]? = some raw) :
    resolveBranchTarget pc offset (buildPcMap l).1 (buildPcMap l).2 =
      if rawTarget raw offset < 0 then none
      else (buildPcMap l).2.get (rawTarget raw offset).toNat := by
  unfold resolveBranchTarget
  rw [List.getD_eq_getElem?_getD, hpc]
  rfl

/-- **A jump resolves to the instruction that starts where it leads.** -/
theorem resolveBranchTarget_eq_some (hpc : (buildPcMap l).1[pc]? = some raw) :
    resolveBranchTarget pc offset (buildPcMap l).1 (buildPcMap l).2 = some t ↔
      ∃ raw', (buildPcMap l).1[t]? = some raw' ∧ (raw' : ℤ) = rawTarget raw offset := by
  rw [resolveBranchTarget_eq hpc]
  split
  · next hneg =>
    refine iff_of_false (by simp) ?_
    rintro ⟨raw', -, heq⟩
    omega
  · next hnonneg =>
    rw [get_buildPcMap]
    constructor
    · intro h
      exact ⟨_, h, by omega⟩
    · rintro ⟨raw', h, heq⟩
      rwa [← heq, Int.toNat_natCast]

/-- No instruction starts at a slot just when it is off their starts. -/
theorem offStart_iff {slot : ℤ} :
    OffStart l (buildPcMap l).1 slot ↔
      ∀ t raw : ℕ, (buildPcMap l).1[t]? = some raw → (raw : ℤ) ≠ slot := by
  have hpos : ∀ insn ∈ l, 0 < slots insn := fun insn _ => slots_pos insn
  constructor
  · rintro (hneg | hpast | ⟨u, insn, raw, hinsn, hload, hraw, rfl⟩) t raw' ht heq
    · omega
    · obtain ⟨hlt, rfl⟩ := getElem?_buildPcMap.mp ht
      have hbefore := start_lt_start hpos hlt le_rfl
      rw [start_length] at hbefore
      omega
    · -- the second slot of the load lies inside it
      obtain ⟨hu, rfl⟩ := getElem?_buildPcMap.mp hraw
      obtain ⟨hlt, rfl⟩ := getElem?_buildPcMap.mp ht
      obtain rfl : l[u] = insn := (List.getElem?_eq_some_iff.mp hinsn).2
      have hsize : slots l[u] = 2 := if_pos hload
      exact not_start_inside hpos hu (Nat.le_of_lt hlt) ⟨by omega, by omega⟩
  · intro hnone
    by_contra hon
    simp only [OffStart, not_or, Int.not_lt, Int.not_le] at hon
    obtain ⟨hnonneg, hlt, hload⟩ := hon
    obtain ⟨pos, rfl⟩ := Int.eq_ofNat_of_zero_le hnonneg
    obtain ⟨t, ht, hfrom, hto⟩ := exists_item (Int.ofNat_lt.mp hlt)
    have hraw := getElem?_buildPcMap.mpr ⟨ht, rfl⟩
    rcases Nat.eq_or_lt_of_le hfrom with heq | hafter
    · exact hnone t _ hraw (congrArg _ heq)
    · have hsize := slots_le l[t]
      have hopcode : l[t].opcode = .ldImm64 := eq_ldImm64_of_slots (by omega)
      exact hload ⟨t, l[t], _, List.getElem?_eq_getElem ht, hopcode, hraw, by omega⟩

theorem resolveBranchTarget_eq_none (hpc : (buildPcMap l).1[pc]? = some raw) :
    resolveBranchTarget pc offset (buildPcMap l).1 (buildPcMap l).2 = none ↔
      OffStart l (buildPcMap l).1 (rawTarget raw offset) := by
  rw [offStart_iff, Option.eq_none_iff_forall_ne_some]
  constructor
  · intro h t raw' ht heq
    exact h t ((resolveBranchTarget_eq_some hpc).mpr ⟨raw', ht, heq⟩)
  · intro h t ht
    obtain ⟨raw', ht', heq⟩ := (resolveBranchTarget_eq_some hpc).mp ht
    exact h t raw' ht' heq

end

/-- **The maps of `build_pc_map` are exact.** -/
theorem buildPcMap_exact (instructions : List BpfInsn) :
    PcMapExact instructions (buildPcMap instructions).1 (buildPcMap instructions).2 where
  length := length_buildPcMap ⟨instructions, [], .empty⟩
  first h := getElem?_buildPcMap.mpr ⟨List.length_pos_iff.mpr h, start_zero instructions⟩
  increasing := by
    rw [buildPcMap_fst, List.pairwise_map]
    refine List.Pairwise.imp_of_mem (fun {i j} _ hj hij => ?_) List.pairwise_lt_range
    exact start_lt_start (fun insn _ => slots_pos insn) hij
      (Nat.le_of_lt (List.mem_range.mp hj))
  inverse _ _ := get_buildPcMap
  resolved _ _ hpc _ _ := resolveBranchTarget_eq_some hpc
  unresolved _ _ hpc _ := resolveBranchTarget_eq_none hpc

/-! ## Loop heads -/

theorem target_eq_some_iff {p : Program} {pc t : ℕ} {insn : BpfInsn}
    (hinsn : p.instructions[pc]? = some insn) :
    p.target pc insn = some t ↔ t < p.instructions.length ∧
      (p.rawStart t : ℤ) = rawTarget (p.rawStart pc) insn.offset := by
  have hpc := getElem?_buildPcMap.mpr ⟨(List.getElem?_eq_some_iff.mp hinsn).1, rfl⟩
  refine (resolveBranchTarget_eq_some hpc).trans ⟨?_, ?_⟩
  · rintro ⟨raw', ht, heq⟩
    obtain ⟨hlt, rfl⟩ := getElem?_buildPcMap.mp ht
    exact ⟨hlt, heq⟩
  · rintro ⟨hlt, heq⟩
    exact ⟨_, getElem?_buildPcMap.mpr ⟨hlt, rfl⟩, heq⟩

/-- **The back-edge targets are the instructions that a jump at or after them leads to.** -/
theorem mem_backEdgeTargets_iff {p : Program} {t : ℕ} :
    t ∈ p.backEdgeTargets ↔ ∃ pc insn, p.instructions[pc]? = some insn ∧ insn.jumps = true ∧
      t ≤ pc ∧ (p.rawStart t : ℤ) = rawTarget (p.rawStart pc) insn.offset := by
  rw [mem_backEdgeTargets]
  constructor
  · rintro ⟨pc, insn, hinsn, hjumps, hle, htarget⟩
    exact ⟨pc, insn, hinsn, hjumps, hle, ((target_eq_some_iff hinsn).mp htarget).2⟩
  · rintro ⟨pc, insn, hinsn, hjumps, hle, hraw⟩
    have hlt : t < p.instructions.length :=
      Nat.lt_of_le_of_lt hle (List.getElem?_eq_some_iff.mp hinsn).1
    exact ⟨pc, insn, hinsn, hjumps, hle, (target_eq_some_iff hinsn).mpr ⟨hlt, hraw⟩⟩

end BpfVerifier
