import BpfVerifier.Fstar.Chunks
import BpfVerifier.Fstar.Emit
import BpfVerifier.Properties.Blocks

/-!
# Properties/Chunks — running a programme block by block

Chunks of any sizes take a programme as far as one chunk of their sum (`execChunks_eq`), and
`exec_program` gives the state a chunk stops in if that is at an EXIT.  The blocks of a programme
are as long as the programme together (`sum_blockSizes`), so that `program_satisfies_chunked` over
them asks what `program_satisfies` asks, and the postcondition of the runs that have taken a step
for each instruction and are not done (`programSatisfiesChunked_iff`).
-/

namespace BpfVerifier

/-! ## The sizes of the blocks -/

/-- Blocks one after another are as long as what they cover. -/
theorem Tiles.sum_len {lo hi : ℕ} {blocks : List BasicBlock} (h : Tiles lo blocks hi) :
    lo + (blocks.map BasicBlock.len).sum = hi := by
  induction blocks generalizing lo with
  | nil => exact h
  | cons b rest ih =>
    obtain ⟨rfl, hlt, hrest⟩ := h
    have hsum := ih hrest
    rw [List.map_cons, List.sum_cons, BasicBlock.len]
    omega

theorem tiles_findBasicBlocks {instructions : List BpfInsn} (h : instructions ≠ []) :
    Tiles 0 (findBasicBlocks instructions) instructions.length := by
  have hempty : instructions.isEmpty = false := List.isEmpty_eq_false_iff.mpr h
  have hlength := length_foldl_markLeaders
    ((List.replicate instructions.length false).set 0 true) instructions.zipIdx
  rw [List.length_set, List.length_replicate] at hlength
  simp only [findBasicBlocks, hempty, Bool.false_eq_true, if_false]
  generalize instructions.zipIdx.foldl markLeaders
    ((List.replicate instructions.length false).set 0 true) = leaders at *
  cases leaders with
  | nil => exact absurd (List.length_eq_zero_iff.mp hlength.symm) h
  | cons first rest =>
    have hcut := (Cutting.start_one (Marked (first :: rest))).foldl rest fun j hj => by
      rw [Marked, Nat.add_comm 1 j, List.getElem?_cons_succ, List.getElem?_eq_getElem hj,
        Option.some.injEq]
    rw [← hlength, List.length_cons, Nat.add_comm, List.zipIdx_cons, List.drop_one, List.tail_cons]
    exact hcut.close.1

/-- **The blocks are as long as the programme, together.** -/
theorem sum_blockSizes (instructions : List BpfInsn) :
    (blockSizes instructions).sum = instructions.length := by
  cases instructions with
  | nil => rfl
  | cons insn rest =>
    have hsum := (tiles_findBasicBlocks (List.cons_ne_nil insn rest)).sum_len
    rwa [Nat.zero_add] at hsum

namespace Fstar

variable {prog : BpfProgram} {spec : BpfSpec} {st final : BpfState}

/-! ## Chunks -/

/-- **Chunks of any sizes take a programme as far as one chunk of their sum.** -/
theorem execChunks_eq (st : BpfState) (prog : BpfProgram) (sizes : List ℕ) :
    execChunks st prog sizes = execChunk st prog sizes.sum := Interp.chunks_eq sizes st

/-- A run gives a state that a chunk stops in at an EXIT, with fuel to see the EXIT. -/
theorem execProgram_succ_iff {n : ℕ} :
    execProgram st prog (n + 1) = some final ↔
      execChunk st prog n = some final ∧ (interp prog).Halted final := Interp.run_succ_eq_some_iff

/-- **Cutting a run does not change it**: chunks whose sizes add up to the fuel less one stop at an
EXIT in the state `exec_program` gives. -/
theorem execChunks_execProgram (st final : BpfState) (prog : BpfProgram) (sizes : List ℕ) :
    execProgram st prog (sizes.sum + 1) = some final ↔
      execChunks st prog sizes = some final ∧ fetchAt prog final.pc = some .exit := by
  rw [execProgram_succ_iff, execChunks_eq]
  refine and_congr Iff.rfl ⟨?_, fun h => ⟨.exit, h, rfl⟩⟩
  rintro ⟨insn, hfetch, hexit⟩
  rw [Insn.isExit_iff.mp hexit] at hfetch
  exact hfetch

/-! ## Specifications -/

/-- What a chunk as long as the programme hands on: what `exec_program` gives, or the state after
all its steps. -/
theorem execChunk_length_iff :
    execChunk st prog prog.length = some final ↔
      execProgram st prog prog.length = some final ∨
        (interp prog).after prog.length st = some final := by
  rw [execChunk, Interp.chunk_eq_some_iff, execProgram, Interp.run_eq_some_iff, or_comm]

/-- **`program_satisfies_chunked` over the blocks of a programme** is `program_satisfies`, together
with the postcondition for the runs that take a step for each instruction. -/
theorem programSatisfiesChunked_iff {instructions : List BpfInsn} {prog : BpfProgram}
    (hemit : emit instructions = some prog) (spec : BpfSpec) :
    programSatisfiesChunked (execBlocks instructions prog) spec ↔
      programSatisfies prog spec ∧ ∀ init final, spec.pre init →
        (interp prog).after prog.length init.entry = some final → spec.post final := by
  have hblocks (init final : BpfState) : execBlocks instructions prog init = some final ↔
      execProgram init.entry prog prog.length = some final ∨
        (interp prog).after prog.length init.entry = some final := by
    rw [execBlocks, execChunks_eq, sum_blockSizes, ← length_of_emit hemit, execChunk_length_iff]
  simp only [programSatisfiesChunked, programSatisfies, meets_iff, hblocks]
  constructor
  · intro h
    exact ⟨fun init hpre final hrun => h init hpre final (Or.inl hrun),
      fun init final hpre hafter => h init hpre final (Or.inr hafter)⟩
  · rintro ⟨hruns, hlong⟩ init hpre final (hrun | hafter)
    · exact hruns init hpre final hrun
    · exact hlong init final hpre hafter

/-- `r0 = 0; if r0 = 0 goto +1; r0 = 1; exit`: three blocks. -/
def skipsMove : List BpfInsn :=
  [.aluImm .mov .r0 0, .jmpImm .jeq .r0 0 1, .aluImm .mov .r0 1, .ret]

theorem programSatisfiesChunked_skipsMove : ∃ prog, emit skipsMove = some prog ∧
    (programSatisfiesChunked (execBlocks skipsMove prog) (.returnsValue 0) ↔
      programSatisfies prog (.returnsValue 0) ∧ ∀ init final, (BpfSpec.returnsValue 0).pre init →
        (interp prog).after prog.length init.entry = some final →
          (BpfSpec.returnsValue 0).post final) :=
  ⟨_, rfl, programSatisfiesChunked_iff rfl _⟩

/-- **The rule of chunks**: assertions that hold at the entry, that each chunk carries on to the
next, and that give the postcondition at an EXIT after the last, prove the specification. -/
theorem programSatisfies_of_chunks {A : ℕ → BpfState → Prop} {sizes : List ℕ}
    (hfuel : prog.length ≤ sizes.sum + 1) (hentry : ∀ init, spec.pre init → A 0 init.entry)
    (hchunk : ∀ i (hi : i < sizes.length) st st', A i st →
      execChunk st prog sizes[i] = some st' → A (i + 1) st')
    (hpost : ∀ st, A sizes.length st → fetchAt prog st.pc = some .exit → spec.post st) :
    programSatisfies prog spec := by
  intro init hpre
  rw [meets_iff]
  intro final hrun
  have hlong : execProgram init.entry prog (sizes.sum + 1) = some final :=
    Interp.run_mono hfuel hrun
  obtain ⟨hchunks, hexit⟩ := (execChunks_execProgram init.entry final prog sizes).mp hlong
  exact hpost final (Interp.chunks_carry hchunk (hentry init hpre) hchunks) hexit

/-- What holds of a run of `r0 = 7; exit` after `i` chunks of one instruction. -/
def ReturnsSeven (i : ℕ) (st : BpfState) : Prop :=
  if i = 0 then st.pc = 0 else st.pc = 1 ∧ st.regs .r0 = .scalar 7

theorem programSatisfies_of_chunks_seven :
    programSatisfies [.alu32Imm .mov .r0 7, .exit] (.returnsValue 7) := by
  refine @programSatisfies_of_chunks _ _ ReturnsSeven [1, 1] (by decide)
    (fun init _ => rfl) (fun i hi st st' h hexec => ?_) (fun st h _ => h.2)
  obtain rfl | rfl : i = 0 ∨ i = 1 := by
    have hlt : i < 2 := hi
    omega
  · have hpc : st.pc = 0 := h
    simp [execChunk, Interp.chunk, interpWith, fetchAt, hpc, Insn.isExit, execInsn, execAlu32Imm]
      at hexec
    subst hexec
    exact ⟨by rw [BpfState.setReg_pc, hpc]; rfl, rfl⟩
  · have hpc : st.pc = 1 := h.1
    simp [execChunk, Interp.chunk, interpWith, fetchAt, hpc, Insn.isExit] at hexec
    exact hexec ▸ h

end Fstar

end BpfVerifier
