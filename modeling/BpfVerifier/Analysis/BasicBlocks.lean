import BpfVerifier.Bpf.Instruction

/-!
# Analysis/BasicBlocks — `find_basic_blocks`

An instruction leads a block when it is the first, the target of a jump, or follows a conditional
jump; the blocks are the stretches between leaders.
-/

namespace BpfVerifier

/-- The instructions from `start` to before `stop`. -/
structure BasicBlock where
  start : ℕ
  stop : ℕ
  deriving DecidableEq, Repr

/-- The index a jump at `i` leads to: the offset counts entries of the list. -/
def blockTarget (i : ℕ) (offset : BitVec 16) : Int := i + 1 + offset.toInt

/-- Mark the target of a jump, if it is in the list. -/
def markTarget (leaders : List Bool) (target : Int) : List Bool :=
  if 0 ≤ target ∧ target.toNat < leaders.length then leaders.set target.toNat true else leaders

/-- Mark the leaders one instruction makes. -/
def markLeaders (leaders : List Bool) (entry : BpfInsn × ℕ) : List Bool :=
  let (insn, i) := entry
  match insn.opcode with
  | .jmpJa => markTarget leaders (blockTarget i insn.offset)
  | .jmp64 _ _ | .jmp32 _ _ =>
    let leaders := markTarget leaders (blockTarget i insn.offset)
    if i + 1 < leaders.length then leaders.set (i + 1) true else leaders
  | _ => leaders

/-- Close the current block at a leader. -/
def splitAt (acc : List BasicBlock × ℕ) (entry : Bool × ℕ) : List BasicBlock × ℕ :=
  let (blocks, start) := acc
  let (isLeader, i) := entry
  if isLeader then (blocks ++ [⟨start, i⟩], i) else (blocks, start)

/-- **`find_basic_blocks`.** -/
def findBasicBlocks (instructions : List BpfInsn) : List BasicBlock :=
  if instructions.isEmpty then []
  else
    let leaders := (List.replicate instructions.length false).set 0 true
    let leaders := instructions.zipIdx.foldl markLeaders leaders
    let (blocks, start) := (leaders.zipIdx.drop 1).foldl splitAt ([], 0)
    blocks ++ [⟨start, instructions.length⟩]

end BpfVerifier
