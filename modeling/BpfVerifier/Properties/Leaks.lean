import BpfVerifier.Properties.Memory
import BpfVerifier.Soundness.Tight

/-!
# Properties/Leaks — what an accepted programme returns

The exit check rejects r0 by its type alone, and lets an unchecked nullable result pass on purpose.
A tight walk lets nothing else through: in every run r0 holds no pointer at EXIT, or the result of a
nullable helper as the helper returned it (`exit_no_leak`).
-/

namespace BpfVerifier

open Loop

variable {p : Program} {L : Layout} {sized : ℕ → BitVec 32 → BitVec 64 → Prop} {ρ : ℕ → Val}
  {env : ℕ → Oracle} {s₀ s : MState} {n pc : ℕ} {insn : BpfInsn} {state : VerifierState}
  {stack : StackState}

/-! ## The exit check -/

/-- An accepted EXIT has passed the exit check. -/
theorem Accepts.checkExit {o : Outcome} (h : Accepts p pc insn state stack n o)
    (hop : insn.opcode = .exit) : checkExit state pc (p.loc pc) = none := by
  cases h with
  | exit _ hcheck => exact hcheck
  | jmp is32 hop' _ _ => cases is32 <;> simp [hop] at hop'
  | alu is64 hop' _ _ => cases is64 <;> simp [hop] at hop'
  | _ => simp_all

/-- The types the exit check lets pass. -/
theorem regType_of_checkExit {loc : Option SourceLoc} (h : checkExit state pc loc = none) :
    (state.get .r0).regType.isNumber = true ∨ (state.get .r0).regType.isPtrOrNull = true := by
  unfold BpfVerifier.checkExit at h
  cases ht : (state.get .r0).regType <;>
    simp_all [RegType.isNumber, RegType.isPtrOrNull, RegType.isPtr]

/-! ## Nullable results -/

/-- The non-null results of nullable helpers, as the helpers return them. -/
def Val.IsResult (L : Layout) (v : Val) : Prop :=
  ∃ call, v = ⟨L.mapBase call, .mapValue call⟩ ∨
    ∃ pc reserved, v = ⟨L.ringBase call, .ringBuf call pc reserved⟩

/-- **A nullable pointer is null or a result**, moved by nothing. -/
theorem RegHolds.isResult {r : RegState} {v : Val} (h : RegHolds L sized ρ r v) (hwf : r.Wf n)
    (hr : r.regType.isPtrOrNull = true) : v.isPtr = false ∨ v.IsResult L := by
  have htype := h.type
  have hids := hwf.ids
  cases ht : r.regType with
  | ptrOrNull inner opc id =>
    rw [ht] at htype hids
    rcases htype.2 with hnull | ⟨-, hinner⟩
    · exact Or.inl hnull.isPtr_eq
    · have hresult := hids.2
      cases inner with
      | mapValuePtr _ o _ _ =>
        obtain rfl : o = 0 := of_decide_eq_true hresult
        obtain ⟨-, call, rfl⟩ := hinner
        exact Or.inr ⟨call, Or.inl (by rw [BitVec.ofNat_eq_ofNat, BitVec.add_zero])⟩
      | ringBufPtr _ o _ pc =>
        obtain rfl : o = 0 := of_decide_eq_true hresult
        obtain ⟨call, reserved, rfl, -⟩ := hinner
        exact Or.inr ⟨call, Or.inr ⟨pc, reserved, by rw [BitVec.ofNat_eq_ofNat, BitVec.add_zero]⟩⟩
      | _ => cases hresult
  | _ => simp [ht, RegType.isPtrOrNull] at hr

/-! ## What EXIT returns -/

/-- **At EXIT, r0 holds no pointer** but the unchecked result of a nullable helper. -/
theorem exit_no_leak (h : p.Accepted) (hp : p.Tight) (h₀ : s₀.Entry L)
    (hrun : exec p L env s₀ n = some s) (hat : s.At p insn) (hexit : insn.opcode = .exit) :
    (s.regs .r0).isPtr = false ∨
      ∃ v : Visit, v.Explains p L s ∧ (v.state.get .r0).regType.isPtrOrNull = true ∧
        (s.regs .r0).IsResult L := by
  have hreach : Relation.ReflTransGen (MState.Steps p L) s₀ s :=
    reflTransGen_of_exec (fun _ _ _ _ _ hstep => hstep) hrun
  obtain ⟨v, hv, herr, hpc, hd, hseal⟩ :=
    (h.carried (hp.carries L) h₀ hreach).resolve_right (Nat.not_le.mpr hat.lt_length)
  obtain rfl := hv.insn_eq_of_at hpc hat
  have hexplains : v.Explains p L s := ⟨hv, herr, hp.precise.transfer hv, hpc, hd⟩
  obtain ⟨ρ, hρ⟩ := hd
  rcases regType_of_checkExit (hexplains.accepts.checkExit hexit) with hnum | hnullable
  · exact Or.inl (hseal.isPtr_eq hρ hnum)
  · exact ((hρ.regs .r0).isResult (hv.wf.regs .r0) hnullable).imp_right fun hresult =>
      ⟨v, hexplains, hnullable, hresult⟩

theorem exit_no_leak_checkedLookup :
    ∃ s, exec checkedLookup .flat (fun _ => .quiet 0 false) (.fresh .flat) 7 = some s ∧
      s.pc = 7 ∧ ((s.regs .r0).isPtr = false ∨
        ∃ v : Visit, v.Explains checkedLookup .flat s ∧
          (v.state.get .r0).regType.isPtrOrNull = true ∧ (s.regs .r0).IsResult .flat) := by
  obtain ⟨s, hs, hpc⟩ := exists_exec checkedLookup (fun _ => .quiet 0 false) 7
    (fun s => s.pc = 7) (by decide +kernel)
  have hprecise : checkedLookup.Precise := Program.precise_of_testAll (by decide +kernel)
  exact ⟨s, hs, hpc, exit_no_leak (by decide +kernel)
    (hprecise.tight_of_testAll (by decide +kernel)) (MState.entry_fresh _) hs
    (show s.At checkedLookup .ret by rw [MState.At, hpc]; rfl) rfl⟩

/-- A lookup whose result is returned as it comes. -/
def returnsLookup : Program :=
  .ofInsns [
    .storeImm .dw .r10 (-8) 0, .aluReg .mov .r2 .r10, .aluImm .add .r2 (-8), .aluImm .mov .r1 0,
    .callHelper 1, .ret]

/-- `returnsLookup` is accepted, and returns a pointer to the map value it found. -/
theorem exit_leak_of_accepted :
    ¬ ∀ (p : Program) (L : Layout) (env : ℕ → Oracle) (s₀ s : MState) (n : ℕ) (insn : BpfInsn),
      p.Accepted → s₀.Entry L → exec p L env s₀ n = some s → s.At p insn →
      insn.opcode = .exit → (s.regs .r0).isPtr = false := by
  intro hall
  obtain ⟨s, hs, hpc, hptr⟩ := exists_exec returnsLookup (fun _ => .quiet 0 false) 5
    (fun s => s.pc = 5 ∧ (s.regs .r0).isPtr = true) (by decide +kernel)
  have hnot := hall returnsLookup .flat _ _ s 5 .ret (by decide +kernel) (MState.entry_fresh _) hs
    (by rw [MState.At, hpc]; rfl) rfl
  rw [hptr] at hnot
  cases hnot

end BpfVerifier
