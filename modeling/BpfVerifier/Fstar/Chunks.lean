import BpfVerifier.Analysis.BasicBlocks
import BpfVerifier.Fstar.Verify
import BpfVerifier.Machinery.Chunks

/-!
# Fstar/Chunks — `exec_chunk` and `program_satisfies_chunked`

`execChunk` runs a programme for a number of instructions from where it is; `execBlocks` chains
chunks of the sizes that `generate_fstar` hands to the template.
-/

namespace BpfVerifier

/-- `BasicBlock::len`. -/
def BasicBlock.len (b : BasicBlock) : ℕ := b.stop - b.start

/-- `block_sizes` of `generate_fstar`. -/
def blockSizes (instructions : List BpfInsn) : List ℕ :=
  (findBasicBlocks instructions).map BasicBlock.len

namespace Fstar

/-- **`exec_chunk`.** -/
def execChunk (st : BpfState) (prog : BpfProgram) (count : ℕ) : Option BpfState :=
  (interp prog).chunk count st

/-- One `exec_chunk` after another. -/
def execChunks (st : BpfState) (prog : BpfProgram) (sizes : List ℕ) : Option BpfState :=
  sizes.foldlM (fun st count => execChunk st prog count) st

/-- **`program_satisfies_chunked`**, over the executor it is given. -/
def programSatisfiesChunked (execFn : BpfState → Option BpfState) (spec : BpfSpec) : Prop :=
  ∀ init, spec.pre init → Meets spec.post (execFn init)

/-- The executor block by block, from the entry state. -/
def execBlocks (instructions : List BpfInsn) (prog : BpfProgram) (init : BpfState) :
    Option BpfState :=
  execChunks init.entry prog (blockSizes instructions)

end Fstar

end BpfVerifier
