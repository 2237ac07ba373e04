import Mathlib.Data.Nat.Init
import Mathlib.Data.Nat.Bitwise
import BpfVerifier.Analysis.Dataflow
import BpfVerifier.Fstar.Schedules

/-!
# Properties/NullPaths — which runs the generated module proves

The module proves the specification for the all-NonNull schedule and for the schedules whose
abstract path gets to an EXIT, the first of these apart.  A run is proved exactly when one of them
makes the choices it takes (`exists_obligation_iff`); a run whose jumps the abstract executor
follows has a path that gets to an EXIT (`reachesExit_of_follows`).
-/

namespace BpfVerifier.Dataflow

open Fstar (BpfProgram BpfState PathSchedule Insn pathInterp execProgramPath SameRun choicesTaken)

/-! ## The schedules that are kept -/

/-- The abstract executor at the entry, under a schedule. -/
def start (schedule : List PathChoice) : PathState := { PathState.init with schedule := schedule }

/-- **The abstract path of a schedule gets to an EXIT**, within two steps for each instruction. -/
def ReachesExit (instructions : List BpfInsn) (schedule : List PathChoice) : Prop :=
  ∃ k < instructions.length * 2, ∃ a, (interp instructions).after k (start schedule) = some a ∧
    (interp instructions).Halted a

/-- The same, by running the path. -/
def reachesExit (instructions : List BpfInsn) (schedule : List PathChoice) : Bool :=
  ((interp instructions).run (instructions.length * 2) (start schedule)).isSome

theorem reachesExit_eq_true_iff {instructions : List BpfInsn} {schedule : List PathChoice} :
    reachesExit instructions schedule = true ↔ ReachesExit instructions schedule := by
  rw [reachesExit, Option.isSome_iff_exists]
  constructor
  · rintro ⟨a, ha⟩
    obtain ⟨k, hk, hafter, hhalted⟩ := Interp.run_eq_some_iff.mp ha
    exact ⟨k, hk, a, hafter, hhalted⟩
  · rintro ⟨k, hk, a, hafter, hhalted⟩
    exact ⟨a, Interp.run_eq_some_iff.mpr ⟨k, hk, hafter, hhalted⟩⟩

/-- The schedules that `analyse` keeps, in its order. -/
def keptSchedules (instructions : List BpfInsn) : List (List PathChoice) :=
  (enumerateSchedules (countNullableHelpers instructions)).filter (reachesExit instructions)

theorem executePath_eq (instructions : List BpfInsn) (schedule : List PathChoice) (pathId : ℕ) :
    (executePath instructions schedule pathId).map PathResult.schedule =
      if reachesExit instructions schedule then some schedule else none := by
  have hdef : executePath instructions schedule pathId =
      ((interp instructions).run (instructions.length * 2) (start schedule)).map fun state =>
        ⟨pathId, schedule, state.returnValue, state.ringbufWrites⟩ := rfl
  rw [hdef, reachesExit]
  cases (interp instructions).run (instructions.length * 2) (start schedule) <;> rfl

/-- The results of the paths that get to an EXIT carry their schedules. -/
theorem map_schedule_filterMap (instructions : List BpfInsn) (l : List (List PathChoice)) (n : ℕ) :
    ((l.zipIdx n).filterMap fun e => executePath instructions e.1 e.2).map PathResult.schedule =
      l.filter (reachesExit instructions) := by
  induction l generalizing n with
  | nil => rfl
  | cons schedule rest ih =>
    have hpath := executePath_eq instructions schedule n
    rw [List.zipIdx_cons, List.filterMap_cons, List.filter_cons]
    cases hexec : executePath instructions schedule n with
    | none =>
      rw [hexec, Option.map_none] at hpath
      split at hpath
      · cases hpath
      · next hnone => simpa [hnone, hexec] using ih (n + 1)
    | some result =>
      rw [hexec, Option.map_some] at hpath
      split at hpath
      · next hsome =>
        simp only [hsome, if_true, List.map_cons, ih (n + 1), Option.some.inj hpath]
      · cases hpath

/-- What is kept after the first: what is kept, with something kept before it. -/
theorem mem_tail_filter {α : Type*} {p : α → Bool} {l : List α} {x : α} :
    x ∈ (l.filter p).tail ↔ ∃ y, [y, x].Sublist l ∧ p y = true ∧ p x = true := by
  constructor
  · intro hx
    obtain ⟨y, rest, hl⟩ := List.exists_cons_of_ne_nil
      (List.ne_nil_of_mem (List.mem_of_mem_tail hx))
    rw [hl, List.tail_cons] at hx
    have hsub : [y, x].Sublist (l.filter p) := by
      rw [hl]
      exact (List.singleton_sublist.mpr hx).cons_cons y
    have hp (z : α) (hz : z ∈ [y, x]) : p z = true := (List.mem_filter.mp (hsub.subset hz)).2
    exact ⟨y, hsub.trans List.filter_sublist, hp y (by simp), hp x (by simp)⟩
  · rintro ⟨y, hsub, hy, hx⟩
    have hfilter : [y, x].Sublist (l.filter p) := by
      simpa [hy, hx] using hsub.filter p
    exact List.singleton_sublist.mp hfilter.tail

/-- **The template gets the kept schedules.** -/
theorem pathSchedules_analyse {instructions : List BpfInsn}
    (hcount : 0 < countNullableHelpers instructions) :
    pathSchedules (analyse instructions) =
      (keptSchedules instructions).map (List.map PathChoice.toFstar) := by
  have hne : countNullableHelpers instructions ≠ 0 := by omega
  have hmap := map_schedule_filterMap instructions
    (enumerateSchedules (countNullableHelpers instructions)) 0
  simp only [analyse, hne, if_false, pathSchedules, if_true]
  rw [keptSchedules, ← hmap, List.map_map]
  rfl

/-- **The obligations of the module**: the all-NonNull schedule, and the kept ones but the first. -/
theorem mem_pathObligations {instructions : List BpfInsn} {prog : BpfProgram}
    (hcount : 0 < countNullableHelpers instructions) {s : PathSchedule} :
    s ∈ pathObligations prog (analyse instructions) ↔ keptSchedules instructions ≠ [] ∧
      (s = Fstar.nonnullSched prog.length ∨
        ∃ schedule ∈ (keptSchedules instructions).tail, s = schedule.map PathChoice.toFstar) := by
  unfold pathObligations
  rw [pathSchedules_analyse hcount]
  cases hkept : keptSchedules instructions with
  | nil => simp
  | cons first rest => simp [eq_comm]

/-! ## Paths that follow a run -/

theorem pc_recordWrite (state : PathState) (insn : BpfInsn) (width : MemWidth)
    (value : Option (BitVec 64)) : (recordWrite state insn width value).pc = state.pc := by
  unfold recordWrite
  split <;> rfl

/-- An instruction that is no jump goes to the next one. -/
theorem pc_transferWithBranches {insn : BpfInsn} (hjump : insn.jumps = false)
    (hexit : insn.opcode ≠ .exit) (state : PathState) :
    (transferWithBranches state insn).pc = state.pc + 1 := by
  unfold BpfInsn.jumps at hjump
  unfold transferWithBranches transferAbstract
  cases hop : insn.opcode with
  | alu64 op src =>
    cases src with
    | reg => cases op <;> rfl
    | imm => cases op <;> dsimp only <;> (try split) <;> rfl
  | alu32 op src => cases op <;> cases src <;> rfl
  | stx width => exact congrArg (· + 1) (pc_recordWrite _ _ _ _)
  | st width => exact congrArg (· + 1) (pc_recordWrite _ _ _ _)
  | jmp64 op src => simp [hop] at hjump
  | jmp32 op src => simp [hop] at hjump
  | jmpJa => simp [hop] at hjump
  | exit => exact absurd hop hexit
  | _ => rfl

/-- **The abstract executor follows a run**: at every jump it goes where the run goes. -/
def Follows (instructions : List BpfInsn) (prog : BpfProgram) (st : BpfState)
    (sched : PathSchedule) (schedule : List PathChoice) : Prop :=
  ∀ n a c c' insn, (interp instructions).after n (start schedule) = some a →
    (pathInterp prog).after n (st, sched) = some c → (pathInterp prog).next c = some c' →
      instructions[a.pc]? = some insn → insn.jumps = true → c.1.pc = a.pc →
        c'.1.pc = (transferWithBranches a insn).pc

/-- The abstract executor takes a step at the instruction a run is at. -/
theorem exists_insn_of_next {instructions : List BpfInsn} {prog : BpfProgram}
    (hemit : emit instructions = some prog) {a : PathState} {c c' : BpfState × PathSchedule}
    (hpc : c.1.pc = a.pc) (hnext : (pathInterp prog).next c = some c') :
    ∃ insn finsn, instructions[a.pc]? = some insn ∧ insn.toFstar = some finsn ∧
      insn.opcode ≠ .exit ∧ finsn ≠ .exit ∧ Fstar.PathEffect c.1 c.2 finsn c'.1 c'.2 ∧
      (interp instructions).next a = some (transferWithBranches a insn) := by
  obtain ⟨finsn, hfinsn, hexit, heffect⟩ := Fstar.pathEffect_of_next hnext
  have hat : c.1.pc.toNat = a.pc := by omega
  rw [hat] at hfinsn
  have hlt : a.pc < instructions.length := by
    rw [← length_of_emit hemit]
    exact (List.getElem?_eq_some_iff.mp hfinsn).1
  have hget : instructions[a.pc]? = some instructions[a.pc] := List.getElem?_eq_getElem hlt
  obtain ⟨finsn', hfinsn', hto⟩ := toFstar_of_emit hemit hget
  obtain rfl := Option.some.inj (hfinsn.symm.trans hfinsn')
  have hopcode : instructions[a.pc].opcode ≠ .exit := fun hop => by
    simp only [BpfInsn.toFstar, hop, Option.some.injEq] at hto
    exact hexit hto.symm
  refine ⟨_, finsn, hget, hto, hopcode, hexit, heffect, ?_⟩
  have hhalts : (interp instructions).halts instructions[a.pc] = false := by
    simpa [interp] using hopcode
  rw [Interp.next_of_fetch hget, hhalts]
  rfl

/-- A step of a run that the abstract executor follows. -/
theorem exists_next_of_follows {instructions : List BpfInsn} {prog : BpfProgram}
    (hemit : emit instructions = some prog) {a : PathState} {c c' : BpfState × PathSchedule}
    (hpc : c.1.pc = a.pc) (hnext : (pathInterp prog).next c = some c')
    (hjumps : ∀ insn, instructions[a.pc]? = some insn → insn.jumps = true →
      c'.1.pc = (transferWithBranches a insn).pc) :
    ∃ a', (interp instructions).next a = some a' ∧ c'.1.pc = a'.pc := by
  obtain ⟨insn, finsn, hget, hto, hopcode, hexit, heffect, hstep⟩ :=
    exists_insn_of_next hemit hpc hnext
  refine ⟨_, hstep, ?_⟩
  cases hjump : insn.jumps with
  | true => exact hjumps _ hget hjump
  | false =>
    have hoff : finsn.branchOffset = none := by
      rw [branchOffset_of_toFstar hto, hjump]
      rfl
    have hsucc : c'.1.pc = c.1.pc + 1 := by
      rcases Fstar.pc_of_pathEffect hexit heffect with hsucc | ⟨off, hoff', -⟩
      · exact hsucc
      · rw [hoff] at hoff'
        cases hoff'
    rw [pc_transferWithBranches hjump hopcode]
    omega

/-- **A schedule whose abstract path follows a run to EXIT is kept.** -/
theorem reachesExit_of_follows {instructions : List BpfInsn} {prog : BpfProgram}
    (hemit : emit instructions = some prog) {st final : BpfState} {sched : PathSchedule}
    (hrun : execProgramPath st prog prog.length sched = some final) (hpc : st.pc = 0)
    {schedule : List PathChoice} (h : Follows instructions prog st sched schedule) :
    ReachesExit instructions schedule := by
  obtain ⟨c, hc, -⟩ := Option.map_eq_some_iff.mp hrun
  obtain ⟨k, hk, hafter, hhalted⟩ := Interp.run_eq_some_iff.mp hc
  rw [length_of_emit hemit] at hk
  -- the two are at the same instruction after each step
  have hlock : ∃ a, (interp instructions).after k (start schedule) = some a ∧ c.1.pc = a.pc := by
    refine Interp.after_sim
      (R := fun _ (c : BpfState × PathSchedule) (a : PathState) => c.1.pc = a.pc) ?_ ?_
      (Nat.le_refl k) hafter
    · exact hpc
    · intro n c c' a _ hc hnext ha hat
      exact exists_next_of_follows hemit hat hnext fun insn hinsn hjump =>
        h n a c c' insn ha hc hnext hinsn hjump hat
  obtain ⟨a, ha, hat⟩ := hlock
  have hhalt : (interp instructions).Halted a := by
    obtain ⟨finsn, hfetch, hexit⟩ := hhalted
    have hget : prog[c.1.pc.toNat]? = some finsn := (Fstar.fetchAt_eq prog c.1.pc).symm.trans hfetch
    have heq : c.1.pc.toNat = a.pc := by omega
    rw [heq] at hget
    have hlt : a.pc < instructions.length := by
      rw [← length_of_emit hemit]
      exact (List.getElem?_eq_some_iff.mp hget).1
    have hinsn : instructions[a.pc]? = some instructions[a.pc] := List.getElem?_eq_getElem hlt
    obtain ⟨finsn', hfinsn', hto⟩ := toFstar_of_emit hemit hinsn
    obtain rfl := Option.some.inj (hget.symm.trans hfinsn')
    obtain rfl := Fstar.Insn.isExit_iff.mp hexit
    exact ⟨_, hinsn, by simpa [interp] using opcode_of_toFstar_exit hto⟩
  exact ⟨k, by omega, a, ha, hhalt⟩

/-! ## The enumeration -/

/-- **Every schedule is enumerated**, as long as there are fewer than 64 nullable calls. -/
theorem mem_enumerateSchedules {count : ℕ} (hcount : count < 64) {schedule : List PathChoice}
    (hlen : schedule.length = count) : schedule ∈ enumerateSchedules count := by
  let bits := Nat.ofBits fun i : Fin count => decide (schedule[i] = .asNull)
  have hlt : bits < 2 ^ (count % 64) := by
    rw [Nat.mod_eq_of_lt hcount]
    exact Nat.ofBits_lt_two_pow _
  refine List.mem_map.mpr ⟨bits, List.mem_range.mpr hlt, ?_⟩
  refine List.ext_getElem (by simp [hlen]) fun i hi hi' => ?_
  have hbit : bits.testBit i = decide (schedule[i] = .asNull) :=
    Nat.testBit_ofBits_lt _ i (by omega)
  simp only [List.getElem_map, List.getElem_range, Nat.mod_eq_of_lt (show i < 64 by omega),
    Nat.and_two_pow, hbit]
  cases schedule[i] <;> simp

/-- The all-NonNull schedule is the first. -/
theorem enumerateSchedules_eq_cons (count : ℕ) : ∃ rest,
    enumerateSchedules count = List.replicate count .nonNull :: rest := by
  obtain ⟨n, hn⟩ : ∃ n, 2 ^ (count % 64) = n + 1 :=
    ⟨_, (Nat.sub_add_cancel (Nat.two_pow_pos _)).symm⟩
  have hhead : ((List.range count).map fun i =>
      if 0 &&& 2 ^ (i % 64) = 0 then PathChoice.nonNull else .asNull) =
        List.replicate count .nonNull := by simp [List.map_const']
  rw [enumerateSchedules, hn, List.range_succ_eq_map, List.map_cons, hhead]
  exact ⟨_, rfl⟩

/-! ## Which runs are proved -/

/-- A schedule of the analysis makes the choices a run takes. -/
def Makes (prog : BpfProgram) (st : BpfState) (sched : PathSchedule)
    (schedule : List PathChoice) : Prop :=
  ∀ i < choicesTaken prog st sched,
    sched.choiceAt i = PathSchedule.choiceAt (schedule.map PathChoice.toFstar) i

/-- The run takes no AsNull choice. -/
def TakesNoNull (prog : BpfProgram) (st : BpfState) (sched : PathSchedule) : Prop :=
  ∀ i < choicesTaken prog st sched, sched.choiceAt i = .NonNull

section

variable {instructions : List BpfInsn} {prog : BpfProgram} {st final : BpfState}
  {sched : PathSchedule} (hcount : 0 < countNullableHelpers instructions)
  (hrun : execProgramPath st prog prog.length sched = some final)

include hcount hrun

theorem exists_obligation_of_takesNoNull {kept : List PathChoice}
    (henum : kept ∈ enumerateSchedules (countNullableHelpers instructions))
    (hkept : ReachesExit instructions kept) (hnonnull : TakesNoNull prog st sched) :
    ∃ s ∈ pathObligations prog (analyse instructions), SameRun prog st sched s := by
  have hne : keptSchedules instructions ≠ [] :=
    List.ne_nil_of_mem (List.mem_filter.mpr ⟨henum, reachesExit_eq_true_iff.mpr hkept⟩)
  refine ⟨_, (mem_pathObligations hcount).mpr ⟨hne, Or.inl rfl⟩, ?_⟩
  refine (Fstar.sameRun_iff hrun).mpr fun i hi => ?_
  exact (hnonnull i hi).trans (Fstar.choiceAt_nonnullSched _ i).symm

theorem exists_obligation_of_makes {earlier schedule : List PathChoice}
    (horder : [earlier, schedule].Sublist (enumerateSchedules (countNullableHelpers instructions)))
    (hearlier : ReachesExit instructions earlier)
    (hschedule : ReachesExit instructions schedule)
    (hmakes : Makes prog st sched schedule) :
    ∃ s ∈ pathObligations prog (analyse instructions), SameRun prog st sched s := by
  have htail : schedule ∈ (keptSchedules instructions).tail :=
    mem_tail_filter.mpr
      ⟨earlier, horder, reachesExit_eq_true_iff.mpr hearlier, reachesExit_eq_true_iff.mpr hschedule⟩
  have hne : keptSchedules instructions ≠ [] := List.ne_nil_of_mem (List.mem_of_mem_tail htail)
  exact ⟨_, (mem_pathObligations hcount).mpr ⟨hne, Or.inr ⟨schedule, htail, rfl⟩⟩,
    (Fstar.sameRun_iff hrun).mpr hmakes⟩

/-- **A run whose schedule the abstract executor follows is proved**, as long as the all-NonNull
path gets to an EXIT too. -/
theorem exists_obligation_of_follows (hemit : emit instructions = some prog) (hpc : st.pc = 0)
    (hfew : countNullableHelpers instructions < 64)
    (hnonnull : ReachesExit instructions
      (List.replicate (countNullableHelpers instructions) .nonNull))
    {schedule : List PathChoice} (hlen : schedule.length = countNullableHelpers instructions)
    (hmakes : Makes prog st sched schedule) (h : Follows instructions prog st sched schedule) :
    ∃ s ∈ pathObligations prog (analyse instructions), SameRun prog st sched s := by
  obtain ⟨rest, henum⟩ := enumerateSchedules_eq_cons (countNullableHelpers instructions)
  have hmem := mem_enumerateSchedules hfew hlen
  rw [henum] at hmem
  rcases List.mem_cons.mp hmem with rfl | hrest
  · -- the all-NonNull schedule
    refine exists_obligation_of_takesNoNull hcount hrun (henum ▸ List.mem_cons_self) hnonnull ?_
    intro i hi
    rw [hmakes i hi, List.map_replicate]
    exact Fstar.choiceAt_replicate_NonNull _ i
  · have horder : [List.replicate (countNullableHelpers instructions) PathChoice.nonNull,
        schedule].Sublist (enumerateSchedules (countNullableHelpers instructions)) := by
      rw [henum]
      exact (List.singleton_sublist.mpr hrest).cons_cons _
    exact exists_obligation_of_makes hcount hrun horder hnonnull
      (reachesExit_of_follows hemit hrun hpc h) hmakes

end

/-- **A run is proved exactly when** the abstract path of some schedule gets to an EXIT, and the run
takes no AsNull choice or a schedule that makes the choices it takes gets to an EXIT after an
earlier one did.  A schedule whose abstract path follows the run gets to an EXIT. -/
theorem exists_obligation_iff {instructions : List BpfInsn} {prog : BpfProgram}
    (hemit : emit instructions = some prog) (hcount : 0 < countNullableHelpers instructions)
    {st final : BpfState} {sched : PathSchedule}
    (hrun : execProgramPath st prog prog.length sched = some final) :
    ((∃ s ∈ pathObligations prog (analyse instructions), SameRun prog st sched s) ↔
      (TakesNoNull prog st sched ∧
          ∃ kept ∈ enumerateSchedules (countNullableHelpers instructions),
            ReachesExit instructions kept) ∨
        ∃ earlier schedule,
          [earlier, schedule].Sublist (enumerateSchedules (countNullableHelpers instructions)) ∧
            ReachesExit instructions earlier ∧ ReachesExit instructions schedule ∧
              Makes prog st sched schedule) ∧
      (st.pc = 0 → ∀ schedule, Follows instructions prog st sched schedule →
        ReachesExit instructions schedule) := by
  refine ⟨⟨?_, ?_⟩, fun hpc schedule => reachesExit_of_follows hemit hrun hpc⟩
  · rintro ⟨s, hs, hsame⟩
    have hagree := (Fstar.sameRun_iff hrun).mp hsame
    obtain ⟨hkept, rfl | ⟨schedule, hschedule, rfl⟩⟩ := (mem_pathObligations hcount).mp hs
    · obtain ⟨kept, hmem⟩ := List.exists_mem_of_ne_nil _ hkept
      obtain ⟨henum, hreaches⟩ := List.mem_filter.mp hmem
      exact Or.inl ⟨fun i hi => (hagree i hi).trans (Fstar.choiceAt_nonnullSched _ i), kept, henum,
        reachesExit_eq_true_iff.mp hreaches⟩
    · obtain ⟨earlier, horder, hearlier, hreaches⟩ := mem_tail_filter.mp hschedule
      exact Or.inr ⟨earlier, schedule, horder, reachesExit_eq_true_iff.mp hearlier,
        reachesExit_eq_true_iff.mp hreaches, hagree⟩
  · rintro (⟨hnonnull, kept, henum, hkept⟩ |
      ⟨earlier, schedule, horder, hearlier, hschedule, hmakes⟩)
    · exact exists_obligation_of_takesNoNull hcount hrun henum hkept hnonnull
    · exact exists_obligation_of_makes hcount hrun horder hearlier hschedule hmakes

/-- `call MAP_LOOKUP_ELEM; if r0 ≠ 0 goto +1; exit; r0 = *r0; exit`. -/
def checksResult : List BpfInsn :=
  [.callHelper 1, .jmpImm .jne .r0 0 1, .ret, .load .dw .r0 .r0 0, .ret]

def checksResultFstar : BpfProgram :=
  [.call .MAP_LOOKUP_ELEM, .jmp64Imm .jne .r0 0 1, .exit, .ldx .dw .r0 .r0 0, .exit]

theorem exists_obligation_checksResult : ∃ s ∈ pathObligations checksResultFstar
    (analyse checksResult), SameRun checksResultFstar .blank [.AsNull] s :=
  (exists_obligation_iff (by decide) (by decide)
    (Option.some_get (by decide +kernel : (execProgramPath .blank checksResultFstar
      checksResultFstar.length [.AsNull]).isSome)).symm).1.mpr
    (Or.inr ⟨[.nonNull], [.asNull], by decide, reachesExit_eq_true_iff.mp (by decide +kernel),
      reachesExit_eq_true_iff.mp (by decide +kernel), by unfold Makes; decide +kernel⟩)

/-- `call GET_PRANDOM_U32; if r0 = 0 goto +1; goto -3; call MAP_LOOKUP_ELEM; exit`: the abstract
path never leaves the loop. -/
def drawsUntilZero : List BpfInsn :=
  [.callHelper 7, .jmpImm .jeq .r0 0 1, .goto (-3), .callHelper 1, .ret]

def drawsUntilZeroFstar : BpfProgram :=
  [.call .GET_PRANDOM_U32, .jmp64Imm .jeq .r0 0 1, .jmpJa (-3), .call .MAP_LOOKUP_ELEM, .exit]

/-- **Not every feasible null path is proved.** -/
theorem not_exists_obligation : ¬∀ (instructions : List BpfInsn) (prog : BpfProgram)
    (st final : BpfState) (sched : PathSchedule), emit instructions = some prog →
      0 < countNullableHelpers instructions →
      execProgramPath st prog prog.length sched = some final →
        ∃ s ∈ pathObligations prog (analyse instructions), SameRun prog st sched s := by
  intro h
  have hrun : (execProgramPath .blank drawsUntilZeroFstar drawsUntilZeroFstar.length
      [.AsNull]).isSome := by decide +kernel
  have hnone : pathObligations drawsUntilZeroFstar (analyse drawsUntilZero) = [] := by
    decide +kernel
  obtain ⟨s, hs, -⟩ := h drawsUntilZero drawsUntilZeroFstar .blank _ [.AsNull] (by decide)
    (by decide) (Option.some_get hrun).symm
  rw [hnone] at hs
  cases hs

end BpfVerifier.Dataflow
