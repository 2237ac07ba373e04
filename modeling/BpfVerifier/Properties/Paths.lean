import BpfVerifier.Cfg.Paths

/-!
# Properties/Paths — what acceptance says about control-flow paths

Every instruction on a path of an accepted programme decodes, jumps to an instruction, calls a known
helper and reads written registers only (`path_wellFormed`).  Falling off the end is not among the
things the walk excludes: it does so exactly when the last instruction, if a path gets there, is an
EXIT or a JA (`endsAtExit_iff`).
-/

namespace BpfVerifier

variable {p : Program}

/-! ## Well-formed paths -/

/-- An accepted instruction decodes. -/
theorem Accepts.known {pc : ℕ} {insn : BpfInsn} {state : VerifierState} {stack : StackState}
    {idGen : ℕ} {o : Outcome} (h : Accepts p pc insn state stack idGen o) : insn.known := by
  intro raw hraw
  cases h with
  | jmp is32 hop _ _ => cases is32 <;> simp [hraw] at hop
  | alu is64 hop _ _ => cases is64 <;> simp [hraw] at hop
  | _ => simp_all

/-- An accepted jump is resolved. -/
theorem Accepts.jumps {pc : ℕ} {insn : BpfInsn} {state : VerifierState} {stack : StackState}
    {idGen : ℕ} {o : Outcome} (h : Accepts p pc insn state stack idGen o)
    (hj : insn.jumps = true) : ∃ t, p.target pc insn = some t := by
  unfold BpfInsn.jumps at hj
  cases h with
  | ja _ ht => exact ⟨_, ht⟩
  | jmp _ _ _ ht => exact ⟨_, ht⟩
  | alu is64 hop _ _ => cases is64 <;> simp [hop] at hj
  | _ => simp_all

/-- A readable register has been written. -/
theorem Readable.written {state : VerifierState} {done : List BpfInsn} {r : Reg}
    (h : Readable state r) (hw : Tracked state (writtenBy done)) : writtenBy done r = true := by
  rcases h with rfl | hr
  · exact writtenBy_r10 done
  · exact hw r hr

/-- **An accepted instruction reads written registers only.** -/
theorem Accepts.reads {pc : ℕ} {insn : BpfInsn} {state : VerifierState} {stack : StackState}
    {idGen : ℕ} {o : Outcome} (h : Accepts p pc insn state stack idGen o) {r : Reg}
    (hr : r ∈ insn.reads) : Readable state r := by
  unfold BpfInsn.reads at hr
  cases h with
  | exit hop hexit =>
    simp only [hop, List.mem_singleton] at hr
    subst hr
    refine Or.inr fun huninit => ?_
    simp [checkExit, huninit] at hexit
  | call hop hhelper hargs =>
    simp only [hop, hhelper, List.mem_filterMap, Option.map_eq_some_iff] at hr
    obtain ⟨⟨reg, expected⟩, hmem, a, ha, hreg⟩ := hr
    obtain rfl : reg = r := hreg
    obtain rfl : expected = some a := ha
    exact Or.inr (arg_of_checkArgs hargs hmem).1
  | jmp is32 hop hreads _ =>
    refine hreads r ?_
    cases is32 <;> simpa [hop, jmpReads, apply_ite] using hr
  | alu is64 hop hreads _ =>
    refine hreads r ?_
    cases is64 <;> simpa [hop, aluReads] using hr
  | ldx hop hread _ _ =>
    simp only [hop, List.mem_singleton] at hr
    exact hr ▸ hread
  | stx hop hdst hsrc _ _ =>
    simp only [hop, List.mem_cons, List.not_mem_nil, or_false] at hr
    rcases hr with rfl | rfl
    · exact hdst
    · exact hsrc
  | st hop hdst _ =>
    simp only [hop, List.mem_singleton] at hr
    exact hr ▸ hdst
  | ja hop _ => simp [hop] at hr
  | ldImm64 hop => simp [hop] at hr

/-- **Every instruction on a path of an accepted programme has been accepted**, in a state where
only registers written on the path are initialised. -/
theorem Program.Accepted.exists_accepts (h : p.Accepted) {done : List BpfInsn} {pc : ℕ}
    {insn : BpfInsn} (hpath : p.Path done pc) (hinsn : p.instructions[pc]? = some insn) :
    ∃ v : Visit, Accepts p pc insn v.state v.stack v.idGen (v.outcome p) ∧
      Tracked v.state (writtenBy done) := by
  have hlt := (List.getElem?_eq_some_iff.mp hinsn).1
  obtain ⟨v, hvisit, herr, rfl, htr⟩ := (h.described hpath).resolve_right (Nat.not_le.mpr hlt)
  obtain rfl : v.insn = insn := Option.some.inj (hvisit.insn_eq.symm.trans hinsn)
  exact ⟨v, Visit.accepts herr, htr⟩

/-- **Every instruction on a path of an accepted programme is well formed**: it decodes, branches
only to the start of an instruction, calls only known helpers, and reads only registers written
earlier on the path. -/
theorem path_wellFormed (h : p.Accepted) {done : List BpfInsn} {pc : ℕ} {insn : BpfInsn}
    (hpath : p.Path done pc) (hinsn : p.instructions[pc]? = some insn) :
    insn.known ∧
      (insn.jumps = true → ∃ t, p.target pc insn = some t ∧ t < p.instructions.length ∧
        (p.rawStart t : Int) = p.rawStart pc + 1 + insn.offset.toInt) ∧
      (insn.opcode = .call → ∃ helper, getHelper insn.imm = some helper) ∧
      ∀ r ∈ insn.reads, writtenBy done r = true := by
  obtain ⟨v, hacc, htr⟩ := h.exists_accepts hpath hinsn
  refine ⟨hacc.known, fun hj => ?_, fun hcall => ?_, fun r hr => (hacc.reads hr).written htr⟩
  · obtain ⟨t, ht⟩ := hacc.jumps hj
    exact ⟨t, ht, Program.target_eq_some hinsn ht⟩
  · obtain ⟨helper, hhelper, -⟩ := hacc.exists_helper hcall
    exact ⟨helper, hhelper⟩

/-- `r0 = 0; exit`. -/
def returnZero : Program := .ofInsns [.aluImm .mov .r0 0, .ret]

theorem path_wellFormed_returnZero : writtenBy [.aluImm .mov .r0 0] .r0 = true :=
  (path_wellFormed (show returnZero.Accepted by decide +kernel)
    (.step .start rfl (List.mem_singleton.mpr rfl)) rfl).2.2.2 .r0 (by decide)

/-! ## The end of the list -/

/-- **No path runs off the end**: no reachable instruction has a successor outside the list, so
every path that cannot be extended has ended at an EXIT. -/
structure Program.EndsAtExit (p : Program) : Prop where
  inside : ∀ done pc insn, p.Path done pc → p.instructions[pc]? = some insn →
    ∀ pc' ∈ p.cfgSucc pc insn, pc' < p.instructions.length
  maximal : ∀ done pc, p.Path done pc →
    (∀ insn pc', p.instructions[pc]? = some insn → pc' ∉ p.cfgSucc pc insn) →
    ∃ insn, p.instructions[pc]? = some insn ∧ insn.opcode = .exit

/-- The last instruction is unreachable, or an EXIT or a JA. -/
def Program.LastDiverts (p : Program) : Prop :=
  ∀ done insn, p.Path done (p.instructions.length - 1) →
    p.instructions[p.instructions.length - 1]? = some insn →
    insn.opcode = .exit ∨ insn.opcode = .jmpJa

/-- An instruction other than EXIT and JA can pass on to the next. -/
theorem next_mem_cfgSucc {pc : ℕ} {insn : BpfInsn} (hexit : insn.opcode ≠ .exit)
    (hja : insn.opcode ≠ .jmpJa) : pc + 1 ∈ p.cfgSucc pc insn := by
  unfold Program.cfgSucc
  split
  · next h => exact absurd h hexit
  · next h => exact absurd h hja
  · exact List.mem_cons_self
  · exact List.mem_cons_self
  · exact List.mem_cons_self

/-- A successor is the next instruction, where one follows, or what a jump resolves to. -/
theorem of_mem_cfgSucc {pc pc' : ℕ} {insn : BpfInsn} (h : pc' ∈ p.cfgSucc pc insn) :
    (pc' = pc + 1 ∧ insn.opcode ≠ .exit ∧ insn.opcode ≠ .jmpJa) ∨
      (insn.jumps = true ∧ p.target pc insn = some pc') := by
  have hjumps {t : ℕ} (hj : insn.jumps = true) (ht : t ∈ (p.target pc insn).toList) :
      insn.jumps = true ∧ p.target pc insn = some t := ⟨hj, Option.mem_toList.mp ht⟩
  unfold Program.cfgSucc at h
  split at h
  · simp at h
  · next hop => exact Or.inr (hjumps (by simp [BpfInsn.jumps, hop]) h)
  · next hop =>
    rcases List.mem_cons.mp h with rfl | ht
    · exact Or.inl ⟨rfl, by simp [hop], by simp [hop]⟩
    · exact Or.inr (hjumps (by simp [BpfInsn.jumps, hop]) ht)
  · next hop =>
    rcases List.mem_cons.mp h with rfl | ht
    · exact Or.inl ⟨rfl, by simp [hop], by simp [hop]⟩
    · exact Or.inr (hjumps (by simp [BpfInsn.jumps, hop]) ht)
  · next hexit hja _ _ => exact Or.inl ⟨List.mem_singleton.mp h, hexit, hja⟩

theorem Program.Accepted.length_pos (h : p.Accepted) : 0 < p.instructions.length := by
  rw [List.length_pos_iff]
  intro hnil
  simp [Program.Accepted, checkWithRelocs, CheckResult.passed, hnil] at h

/-- A diverting last instruction keeps every successor inside the list. -/
theorem Program.LastDiverts.inside (h : p.LastDiverts) {done : List BpfInsn} {pc pc' : ℕ}
    {insn : BpfInsn} (hpath : p.Path done pc) (hinsn : p.instructions[pc]? = some insn)
    (hs : pc' ∈ p.cfgSucc pc insn) : pc' < p.instructions.length := by
  rcases of_mem_cfgSucc hs with ⟨rfl, hexit, hja⟩ | ⟨-, ht⟩
  · have hlt := (List.getElem?_eq_some_iff.mp hinsn).1
    by_contra hge
    obtain rfl : pc = p.instructions.length - 1 := by omega
    exact (h done insn hpath hinsn).elim hexit hja
  · exact (Program.target_eq_some hinsn ht).1

/-- A diverting last instruction keeps every path inside the list. -/
theorem Program.LastDiverts.lt_length (h : p.LastDiverts) (hpos : 0 < p.instructions.length)
    {done : List BpfInsn} {pc : ℕ} (hpath : p.Path done pc) : pc < p.instructions.length := by
  cases hpath with
  | start => exact hpos
  | step hpre hinsn hs => exact h.inside hpre hinsn hs

/-- **An accepted programme stays inside its list exactly when its last instruction, if reachable,
is an EXIT or a JA.** -/
theorem endsAtExit_iff (h : p.Accepted) : p.EndsAtExit ↔ p.LastDiverts := by
  have hpos := h.length_pos
  constructor
  · intro hend done insn hpath hinsn
    by_contra hnot
    have hnext : p.instructions.length - 1 + 1 ∈ p.cfgSucc (p.instructions.length - 1) insn :=
      next_mem_cfgSucc (fun he => hnot (Or.inl he)) (fun hj => hnot (Or.inr hj))
    have := hend.inside done _ insn hpath hinsn _ hnext
    omega
  · intro hlast
    refine ⟨fun done pc insn hpath hinsn pc' hs => hlast.inside hpath hinsn hs,
      fun done pc hpath hstuck => ?_⟩
    obtain ⟨insn, hinsn⟩ : ∃ insn, p.instructions[pc]? = some insn :=
      ⟨_, List.getElem?_eq_getElem (hlast.lt_length hpos hpath)⟩
    refine ⟨insn, hinsn, ?_⟩
    by_contra hexit
    by_cases hja : insn.opcode = .jmpJa
    · obtain ⟨v, hacc, -⟩ := h.exists_accepts hpath hinsn
      obtain ⟨t, ht⟩ := hacc.jumps (by simp [BpfInsn.jumps, hja])
      exact hstuck _ t hinsn (by simp [Program.cfgSucc, hja, ht])
    · exact hstuck _ _ hinsn (next_mem_cfgSucc hexit hja)

/-- `r0 = 0; if r0 == 0 goto +1; exit; r0 = 0`: the jump skips the only EXIT. -/
def skipsExit : Program :=
  .ofInsns [.aluImm .mov .r0 0, .jmpImm .jeq .r0 0 1, .ret, .aluImm .mov .r0 0]

/-- The walk of `skipsExit` meets an EXIT on one path and reports nothing about the other. -/
theorem not_endsAtExit_of_accepted : ¬ ∀ p : Program, p.Accepted → p.EndsAtExit := by
  intro hall
  have hend := hall skipsExit (by decide +kernel)
  have hpath : skipsExit.Path [.aluImm .mov .r0 0, .jmpImm .jeq .r0 0 1] 3 :=
    have hfirst : skipsExit.Path [.aluImm .mov .r0 0] 1 := .step .start rfl (by decide)
    hfirst.step rfl (by decide)
  have := hend.inside _ 3 (.aluImm .mov .r0 0) hpath rfl 4 (by decide)
  simp [skipsExit, Program.ofInsns] at this

theorem endsAtExit_iff_returnZero : returnZero.EndsAtExit ↔ returnZero.LastDiverts :=
  endsAtExit_iff (by decide +kernel)

end BpfVerifier
