import BpfVerifier.Analysis.BasicBlocks

/-!
# Properties/Blocks — basic blocks partition the programme

`find_basic_blocks` cuts a list at its leaders and nowhere else (`findBasicBlocks_partitions`).  The
first pass marks exactly the leaders (`marked_leaders`); the second keeps a cutting of what it has
passed over (`Cutting`).
-/

namespace BpfVerifier

/-! ## Leaders -/

/-- An instruction at `i` makes `k` lead a block: `k` is its jump target, or follows it and it is a
conditional jump. -/
def Leads (insn : BpfInsn) (i k : ℕ) : Prop :=
  match insn.opcode with
  | .jmpJa => (k : ℤ) = blockTarget i insn.offset
  | .jmp64 _ _ | .jmp32 _ _ => (k : ℤ) = blockTarget i insn.offset ∨ k = i + 1
  | _ => False

/-- **The leaders of a list** besides its first instruction. -/
def Leader (instructions : List BpfInsn) (k : ℕ) : Prop :=
  k < instructions.length ∧ ∃ i insn, instructions[i]? = some insn ∧ Leads insn i k

/-- A mark is set. -/
def Marked (leaders : List Bool) (k : ℕ) : Prop := leaders[k]? = some true

theorem marked_set {leaders : List Bool} {j k : ℕ} :
    Marked (leaders.set j true) k ↔ Marked leaders k ∨ k = j ∧ k < leaders.length := by
  unfold Marked
  rw [List.getElem?_set]
  by_cases hjk : j = k
  · subst hjk
    by_cases hlt : j < leaders.length <;> simp [hlt]
  · simp [hjk, Ne.symm hjk]

@[simp] theorem length_markTarget (leaders : List Bool) (target : Int) :
    (markTarget leaders target).length = leaders.length := by
  unfold markTarget
  split <;> simp

theorem marked_markTarget {leaders : List Bool} {target : Int} {k : ℕ} :
    Marked (markTarget leaders target) k ↔
      Marked leaders k ∨ (k : ℤ) = target ∧ k < leaders.length := by
  unfold markTarget
  split
  · next hin =>
    rw [marked_set]
    have heq : k = target.toNat ↔ (k : ℤ) = target := by omega
    rw [heq]
  · next hout =>
    refine ⟨Or.inl, fun h => h.elim id fun ⟨heq, hlt⟩ => ?_⟩
    exact absurd ⟨by omega, by omega⟩ hout

/-- Marking an index only if it is in the list. -/
theorem marked_ite_set {leaders : List Bool} {j k : ℕ} :
    Marked (if j < leaders.length then leaders.set j true else leaders) k ↔
      Marked leaders k ∨ k = j ∧ k < leaders.length := by
  split
  · exact marked_set
  · next hout =>
    refine ⟨Or.inl, fun h => h.elim id fun ⟨heq, hlt⟩ => ?_⟩
    exact absurd (heq ▸ hlt) hout

@[simp] theorem length_markLeaders (leaders : List Bool) (entry : BpfInsn × ℕ) :
    (markLeaders leaders entry).length = leaders.length := by
  obtain ⟨insn, i⟩ := entry
  cases hop : insn.opcode with
  | jmpJa =>
    simp only [markLeaders, hop]
    exact length_markTarget _ _
  | jmp64 | jmp32 =>
    simp only [markLeaders, hop]
    split <;> simp
  | _ => simp only [markLeaders, hop]

/-- One instruction marks what it makes lead. -/
theorem marked_markLeaders {leaders : List Bool} {insn : BpfInsn} {i k : ℕ} :
    Marked (markLeaders leaders (insn, i)) k ↔
      Marked leaders k ∨ k < leaders.length ∧ Leads insn i k := by
  cases hop : insn.opcode with
  | jmpJa =>
    simp only [markLeaders, Leads, hop]
    rw [marked_markTarget]
    tauto
  | jmp64 | jmp32 =>
    simp only [markLeaders, Leads, hop]
    rw [marked_ite_set, marked_markTarget, length_markTarget]
    tauto
  | _ => simp only [markLeaders, Leads, hop, and_false, or_false]

/-- **The first pass marks the leaders.** -/
theorem marked_foldl {leaders : List Bool} {entries : List (BpfInsn × ℕ)} {k : ℕ} :
    Marked (entries.foldl markLeaders leaders) k ↔
      Marked leaders k ∨ k < leaders.length ∧ ∃ e ∈ entries, Leads e.1 e.2 k := by
  induction entries generalizing leaders with
  | nil => simp
  | cons e rest ih =>
    rw [List.foldl_cons, ih, marked_markLeaders, length_markLeaders]
    simp only [List.mem_cons, exists_eq_or_imp]
    tauto

theorem length_foldl_markLeaders (leaders : List Bool) (entries : List (BpfInsn × ℕ)) :
    (entries.foldl markLeaders leaders).length = leaders.length := by
  induction entries generalizing leaders with
  | nil => rfl
  | cons e rest ih => rw [List.foldl_cons, ih, length_markLeaders]

/-- **The marks are the first instruction and the leaders.** -/
theorem marked_leaders (instructions : List BpfInsn) (k : ℕ) :
    Marked (instructions.zipIdx.foldl markLeaders
      ((List.replicate instructions.length false).set 0 true)) k ↔
        k = 0 ∧ k < instructions.length ∨ Leader instructions k := by
  have hnone : ¬Marked (List.replicate instructions.length false) k := by
    unfold Marked
    rw [List.getElem?_replicate]
    split <;> simp
  rw [marked_foldl, marked_set, List.length_set, List.length_replicate]
  have hleads : (∃ e ∈ instructions.zipIdx, Leads e.1 e.2 k) ↔
      ∃ i insn, instructions[i]? = some insn ∧ Leads insn i k := by
    constructor
    · rintro ⟨⟨insn, i⟩, hmem, hk⟩
      exact ⟨i, insn, List.mk_mem_zipIdx_iff_getElem?.mp hmem, hk⟩
    · rintro ⟨i, insn, hget, hk⟩
      exact ⟨(insn, i), List.mk_mem_zipIdx_iff_getElem?.mpr hget, hk⟩
  rw [hleads, Leader]
  tauto

/-! ## Cutting -/

/-- **Non-empty blocks, one after another, from `lo` to `hi`.** -/
def Tiles : ℕ → List BasicBlock → ℕ → Prop
  | lo, [], hi => lo = hi
  | lo, b :: rest, hi => b.start = lo ∧ b.start < b.stop ∧ Tiles b.stop rest hi

theorem Tiles.append {lo mid hi : ℕ} {blocks : List BasicBlock} (h : Tiles lo blocks mid)
    (hlt : mid < hi) : Tiles lo (blocks ++ [⟨mid, hi⟩]) hi := by
  induction blocks generalizing lo with
  | nil =>
    obtain rfl : lo = mid := h
    exact ⟨rfl, hlt, rfl⟩
  | cons b rest ih => exact ⟨h.1, h.2.1, ih h.2.2⟩

/-- A block that starts at a mark and has none inside. -/
structure CutAt (marked : ℕ → Prop) (b : BasicBlock) : Prop where
  start : b.start = 0 ∨ marked b.start
  inside : ∀ k, marked k → ¬(b.start < k ∧ k < b.stop)

/-- **What the second pass holds on reaching `n`**: the closed blocks are cut at the marks, and the
open one has none inside so far. -/
structure Cutting (marked : ℕ → Prop) (n : ℕ) (acc : List BasicBlock × ℕ) : Prop where
  tiles : Tiles 0 acc.1 acc.2
  lt : acc.2 < n
  start : acc.2 = 0 ∨ marked acc.2
  inside : ∀ k, marked k → acc.2 < k → n ≤ k
  blocks : ∀ b ∈ acc.1, CutAt marked b

variable {marked : ℕ → Prop} {n : ℕ} {acc : List BasicBlock × ℕ}

theorem Cutting.start_one (marked : ℕ → Prop) : Cutting marked 1 ([], 0) where
  tiles := rfl
  lt := Nat.one_pos
  start := Or.inl rfl
  inside _ _ hlt := hlt
  blocks _ hb := absurd hb List.not_mem_nil

/-- Closing the open block at `n`. -/
theorem Cutting.close (h : Cutting marked n acc) :
    Tiles 0 (acc.1 ++ [⟨acc.2, n⟩]) n ∧ ∀ b ∈ acc.1 ++ [⟨acc.2, n⟩], CutAt marked b := by
  refine ⟨h.tiles.append h.lt, fun b hb => ?_⟩
  rcases List.mem_append.mp hb with hb | hb
  · exact h.blocks b hb
  · obtain rfl := List.mem_singleton.mp hb
    exact ⟨h.start, fun k hk ⟨hlo, hhi⟩ => Nat.not_le_of_lt hhi (h.inside k hk hlo)⟩

theorem Cutting.split (h : Cutting marked n acc) {isLeader : Bool}
    (hmark : isLeader = true ↔ marked n) : Cutting marked (n + 1) (splitAt acc (isLeader, n)) := by
  cases isLeader with
  | false =>
    have hn : ¬marked n := fun hm => by simpa using hmark.mpr hm
    refine ⟨h.tiles, Nat.lt_succ_of_lt h.lt, h.start, fun k hk hlt => ?_, h.blocks⟩
    have hne : k ≠ n := fun heq => hn (heq ▸ hk)
    have hle := h.inside k hk hlt
    omega
  | true =>
    obtain ⟨htiles, hblocks⟩ := h.close
    exact ⟨htiles, Nat.lt_succ_self n, Or.inr (hmark.mp rfl), fun k _ hlt => hlt, hblocks⟩

/-- **The second pass cuts at the marks.** -/
theorem Cutting.foldl (h : Cutting marked n acc) (bits : List Bool)
    (hbits : ∀ j (hj : j < bits.length), bits[j] = true ↔ marked (n + j)) :
    Cutting marked (n + bits.length) ((bits.zipIdx n).foldl splitAt acc) := by
  induction bits generalizing n acc with
  | nil => exact h
  | cons b rest ih =>
    have hb := hbits 0 (Nat.zero_lt_succ _)
    have hrest := ih (h.split hb) fun j hj => by
      have hj' := hbits (j + 1) (Nat.succ_lt_succ hj)
      rwa [List.getElem_cons_succ, show n + (j + 1) = n + 1 + j by omega] at hj'
    rw [List.zipIdx_cons, List.foldl_cons, List.length_cons,
      show n + (rest.length + 1) = n + 1 + rest.length by omega]
    exact hrest

/-! ## The blocks of a programme -/

/-- **A partition of a list into blocks**: they tile it, no leader is strictly inside one, and each
but the first starts at a leader. -/
structure Partitions (instructions : List BpfInsn) (blocks : List BasicBlock) : Prop where
  tiles : Tiles 0 blocks instructions.length
  inside : ∀ b ∈ blocks, ∀ k, Leader instructions k → ¬(b.start < k ∧ k < b.stop)
  start : ∀ b ∈ blocks, b.start ≠ 0 → Leader instructions b.start

/-- **Basic blocks partition the programme.** -/
theorem findBasicBlocks_partitions {instructions : List BpfInsn} (h : instructions ≠ []) :
    Partitions instructions (findBasicBlocks instructions) := by
  have hempty : instructions.isEmpty = false := List.isEmpty_eq_false_iff.mpr h
  have hmarked := marked_leaders instructions
  have hlength := length_foldl_markLeaders
    ((List.replicate instructions.length false).set 0 true) instructions.zipIdx
  rw [List.length_set, List.length_replicate] at hlength
  simp only [findBasicBlocks, hempty, Bool.false_eq_true, if_false]
  generalize instructions.zipIdx.foldl markLeaders
    ((List.replicate instructions.length false).set 0 true) = leaders at *
  cases leaders with
  | nil => exact absurd (List.length_eq_zero_iff.mp hlength.symm) h
  | cons first rest =>
    -- the second pass starts after the first leader
    have hcut := (Cutting.start_one (Marked (first :: rest))).foldl rest fun j hj => by
      rw [Marked, Nat.add_comm 1 j, List.getElem?_cons_succ, List.getElem?_eq_getElem hj,
        Option.some.injEq]
    have hend : 1 + rest.length = instructions.length := by
      rw [← hlength, List.length_cons, Nat.add_comm]
    rw [hend] at hcut
    obtain ⟨htiles, hblocks⟩ := hcut.close
    rw [List.zipIdx_cons, List.drop_one, List.tail_cons]
    refine ⟨htiles, fun b hb k hk => ?_, fun b hb hne => ?_⟩
    · exact (hblocks b hb).inside k ((hmarked k).mpr (Or.inr hk))
    · have hstart := (hmarked _).mp ((hblocks b hb).start.resolve_left hne)
      exact hstart.resolve_left fun ⟨heq, _⟩ => hne heq

/-- A jump over one instruction makes three blocks. -/
theorem findBasicBlocks_partitions_branch :
    Partitions [.aluImm .mov .r0 0, .jmpImm .jeq .r1 0 1, .aluImm .mov .r0 1, .ret]
      [⟨0, 2⟩, ⟨2, 3⟩, ⟨3, 4⟩] :=
  findBasicBlocks_partitions (List.cons_ne_nil _ _)

end BpfVerifier
