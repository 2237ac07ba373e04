import BpfVerifier.Fstar.Semantics

/-!
# Fstar/Verify — `BPF.Spec` and `BPF.Verify`, what a proved specification says

`programSatisfies` runs a programme from its entry with one unit of fuel for each instruction; a run
that gives nothing satisfies every specification.
-/

namespace BpfVerifier.Fstar

/-- A precondition on the initial state and a postcondition on the final one. -/
structure BpfSpec where
  pre : BpfState → Prop
  post : BpfState → Prop

namespace BpfSpec

/-- A postcondition only. -/
def postOnly (p : BpfState → Prop) : BpfSpec := ⟨fun _ => True, p⟩

/-- `with_pre`: one more precondition. -/
def withPre (p : BpfState → Prop) (spec : BpfSpec) : BpfSpec :=
  ⟨fun st => p st ∧ spec.pre st, spec.post⟩

/-- The programme returns a given number. -/
def returnsValue (v : BitVec 64) : BpfSpec := postOnly fun st => st.regs .r0 = .scalar v

/-- The ring buffer holds a given number of writes. -/
def ringbufWritesExactly (n : ℕ) (p : RingbufMem → Prop) : BpfSpec :=
  postOnly fun st => ringbufWriteCount st.ringbuf = n ∧ p st.ringbuf

end BpfSpec

/-- What a specification asks of a run: its result, if it has one, meets the postcondition. -/
def Meets (post : BpfState → Prop) : Option BpfState → Prop
  | some final => post final
  | none => True

/-- **`program_satisfies`.** -/
def programSatisfies (prog : BpfProgram) (spec : BpfSpec) : Prop :=
  ∀ init, spec.pre init → Meets spec.post (execProgram init.entry prog prog.length)

theorem meets_iff {post : BpfState → Prop} {r : Option BpfState} :
    Meets post r ↔ ∀ final, r = some final → post final := by
  cases r <;> simp [Meets]

end BpfVerifier.Fstar
