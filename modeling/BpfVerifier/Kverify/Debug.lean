import BpfVerifier.Kverify.Worklist

/-!
# Kverify/Debug — `check_with_relocs` in a build with overflow checks

`aluTnum` takes the amount of an arithmetic right shift modulo 64, as a release build does; with
overflow checks `a as i64 >> s` panics from 64 on.  `transferPanics` is that panic at an
instruction, `checkWithRelocsDebug` the verifier that stops there.  Offsets of pointers, which
are plain `i64` sums too, wrap here as in `shiftPtr`.
-/

namespace BpfVerifier

/-- `a as i64 >> s` panics: both operands are known, and the amount is past the width. -/
def arshPanics (dst src : Tnum) : Bool :=
  match dst.knownValue, src.knownValue with
  | some _, some s => decide (64 ≤ s.toNat)
  | _, _ => false

/-- Whether `checkAlu` gets as far as a shift that panics.  The check before it reads the amount's
`umax`, which a branch may have lowered below the value the tnum still knows. -/
def checkAluPanics (state : VerifierState) (insn : BpfInsn) (op : AluOp) (src : Source)
    (is64 : Bool) : Bool :=
  let dst := state.get insn.dst
  op == .arsh && (shiftOverflow state insn src is64).isNone && !dst.regType.isPtr &&
    arshPanics dst.tnum (aluSrcState state insn src is64).tnum

/-- Whether processing the instruction at `pc` panics: an ALU instruction whose reads pass. -/
def transferPanics (p : Program) (pc : ℕ) (insn : BpfInsn) (state : VerifierState) : Bool :=
  let panics (op : AluOp) (src : Source) (is64 : Bool) : Bool :=
    ((aluReads insn op src).findSome? fun r => checkRegReadable state r pc (p.loc pc)).isNone &&
      checkAluPanics state insn op src is64
  match insn.opcode with
  | .alu64 op src => panics op src true
  | .alu32 op src => panics op src false
  | _ => false

/-- Whether a pass of the loop panics: it gets as far as its instruction, and that does. -/
def Walk.panics (p : Program) (m : Walk) : Bool :=
  match m.current p with
  | none => false
  | some (pc, insn) =>
    let m := { m with totalVisited := m.totalVisited + 1 }
    if COMPLEXITY_LIMIT < m.totalVisited then false
    else if m.dominated pc then false
    else transferPanics p pc insn (m.record p pc).state

/-- One pass of the loop with overflow checks: after a panic there is no walk. -/
def Walk.stepDebug (p : Program) : Option Walk → Control (Option Walk) :=
  Loop.guarded (Walk.step p) (Walk.panics p)

/-- Run the verifier with overflow checks; `none` is a panic. -/
def checkWithRelocsDebug (p : Program) : Option CheckResult :=
  if p.instructions.isEmpty then some ⟨[VerifyError.new 0 .fallThrough], 0⟩
  else
    (Loop.iterate (Walk.stepDebug p) LOOP_FUEL (some .initial)).map fun m =>
      ⟨dedupErrors [] m.report, m.totalVisited⟩

end BpfVerifier
