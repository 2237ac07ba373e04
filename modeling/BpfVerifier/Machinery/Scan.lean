import Mathlib.Tactic.Common

/-!
# Machinery/Scan — one pass over an instruction list that remembers jumps

A `Scanner` goes through a list once, in order.  At a jump it saves the abstract state for the
target; when it gets there it joins the saved state in.  `stateAt` is what the pass holds on
reaching an instruction and `mergedAt` the same after the join.  Where the join is an upper bound of
an order, `mergedAt` is above every state that fell through or was saved for the instruction from
before it (`UpperBounds.le_mergedAt_succ`, `UpperBounds.le_mergedAt_target`).
-/

/-- A pass over a list: how states are joined, and what an instruction makes of the state. -/
structure Scanner (α ι : Type*) where
  join : α → α → α
  /-- The state after the instruction at a position, and the jump to save; `none` rejects. -/
  transfer : α → ι → Int → Option (α × Option (Int × α))

namespace Scanner

/-- The states saved for instructions still to come. -/
abbrev Targets (α : Type*) := Int → Option α

variable {α ι : Type*} (S : Scanner α ι)

def emptyTargets : Targets α := fun _ => none

/-- Save a state for a target, joined with what is saved there. -/
def addTarget (targets : Targets α) (pc : Int) (state : α) : Targets α := fun i =>
  if i = pc then
    match targets i with
    | some existing => some (S.join existing state)
    | none => some state
  else targets i

/-- Join the state saved for a position into the current one, and clear it. -/
def applyTargets (abs : α) (pc : Int) (targets : Targets α) : α × Targets α :=
  match targets pc with
  | some saved => (S.join abs saved, fun i => if i = pc then none else targets i)
  | none => (abs, targets)

/-- One instruction of the pass. -/
def checkInsn (abs : α) (insn : ι) (pc : Int) (targets : Targets α) : Option (α × Targets α) :=
  let (abs, targets) := S.applyTargets abs pc targets
  match S.transfer abs insn pc with
  | none => none
  | some (abs', none) => some (abs', targets)
  | some (abs', some (target, state)) => some (abs', S.addTarget targets target state)

/-- The pass. -/
def loop (abs : α) (prog : List ι) (pc : Int) (targets : Targets α) : Bool :=
  match prog with
  | [] => true
  | insn :: rest =>
    match S.checkInsn abs insn pc targets with
    | none => false
    | some (abs', targets') => loop abs' rest (pc + 1) targets'

/-- Save a widened state for every instruction some jump goes back to. -/
def initLoopTargets (branchOffset : ι → Option Int) (widened : α) :
    List ι → Int → Targets α → Targets α
  | [], _, targets => targets
  | insn :: rest, pc, targets =>
    let targets :=
      match branchOffset insn with
      | some off =>
        let targetPc := pc + 1 + off
        if targetPc ≤ pc then S.addTarget targets targetPc widened else targets
      | none => targets
    initLoopTargets branchOffset widened rest (pc + 1) targets

/-- What the pass holds after `k` instructions. -/
def stateFrom (abs : α) (prog : List ι) (pc : Int) (targets : Targets α) :
    ℕ → Option (α × Targets α)
  | 0 => some (abs, targets)
  | k + 1 =>
    match prog with
    | [] => none
    | insn :: rest =>
      match S.checkInsn abs insn pc targets with
      | none => none
      | some (abs', targets') => stateFrom abs' rest (pc + 1) targets' k

variable {S}

theorem applyTargets_none {abs : α} {pc : Int} {targets : Targets α} (h : targets pc = none) :
    S.applyTargets abs pc targets = (abs, targets) := by
  simp [applyTargets, h]

/-- What is saved for another position is not touched. -/
theorem applyTargets_of_ne {abs : α} {pc i : Int} {targets : Targets α} (h : i ≠ pc) :
    (S.applyTargets abs pc targets).2 i = targets i := by
  unfold applyTargets
  cases targets pc with
  | none => rfl
  | some saved => exact if_neg h

theorem addTarget_apply (targets : Targets α) (pc : Int) (state : α) (i : Int) :
    S.addTarget targets pc state i =
      if i = pc then some ((targets pc).elim state fun existing => S.join existing state)
      else targets i := by
  unfold addTarget
  split
  · next heq =>
    rw [heq]
    cases targets pc <;> rfl
  · rfl

/-- **A pass accepts when it gets to the end.** -/
theorem loop_iff_stateFrom {abs : α} {prog : List ι} {pc : Int} {targets : Targets α} :
    S.loop abs prog pc targets = true ↔
      ∃ s, S.stateFrom abs prog pc targets prog.length = some s := by
  induction prog generalizing abs pc targets with
  | nil => simp [loop, stateFrom]
  | cons insn rest ih =>
    rw [List.length_cons, loop, stateFrom]
    cases S.checkInsn abs insn pc targets with
    | none => simp
    | some s => exact ih

/-- The last of `k + 1` instructions. -/
theorem stateFrom_succ {abs : α} {prog : List ι} {pc : Int} {targets : Targets α} {k : ℕ} :
    S.stateFrom abs prog pc targets (k + 1) =
      (S.stateFrom abs prog pc targets k).bind fun s =>
        prog[k]?.bind fun insn => S.checkInsn s.1 insn (pc + k) s.2 := by
  induction k generalizing abs prog pc targets with
  | zero =>
    cases prog with
    | nil => simp [stateFrom]
    | cons insn rest => cases h : S.checkInsn abs insn pc targets <;> simp [stateFrom, h]
  | succ k ih =>
    cases prog with
    | nil => simp [stateFrom]
    | cons insn rest =>
      rw [stateFrom]
      cases h : S.checkInsn abs insn pc targets with
      | none => simp [stateFrom, h]
      | some s =>
        simp only [ih, stateFrom, h]
        have hpc : pc + 1 + (k : Int) = pc + ((k + 1 : ℕ) : Int) := by omega
        simp [hpc]

/-- A pass that gets to an instruction has got to every earlier one. -/
theorem stateFrom_of_le {abs : α} {prog : List ι} {pc : Int} {targets : Targets α} {j k : ℕ}
    (hjk : j ≤ k) {s : α × Targets α} (h : S.stateFrom abs prog pc targets k = some s) :
    ∃ s', S.stateFrom abs prog pc targets j = some s' := by
  induction k generalizing s with
  | zero =>
    obtain rfl := Nat.le_zero.mp hjk
    exact ⟨s, h⟩
  | succ k ih =>
    rcases Nat.lt_or_ge k j with hlt | hle
    · obtain rfl := Nat.le_antisymm hjk hlt
      exact ⟨s, h⟩
    · rw [stateFrom_succ] at h
      obtain ⟨s₁, hs₁, -⟩ := Option.bind_eq_some_iff.mp h
      exact ih hle hs₁

/-! ## What an accepting pass holds at each instruction -/

section Accepts

variable (S) (abs₀ : α) (prog : List ι) (targets₀ : Targets α)

/-- What the pass from the first instruction holds on reaching instruction `k`. -/
def stateAt (k : ℕ) : Option (α × Targets α) := S.stateFrom abs₀ prog 0 targets₀ k

/-- The state at instruction `k`, with what was saved for it joined in. -/
def mergedAt (k : ℕ) : Option α :=
  (S.stateAt abs₀ prog targets₀ k).map fun s => (S.applyTargets s.1 k s.2).1

/-- Whether a state was saved for instruction `k` when the pass gets to it. -/
def mergesAt (k : ℕ) : Bool :=
  (S.stateAt abs₀ prog targets₀ k).any fun s => (s.2 k).isSome

variable {S abs₀ prog targets₀}

/-- The pass gets no further than the end of the list. -/
theorem le_of_stateAt {k : ℕ} {s : α × Targets α} (h : S.stateAt abs₀ prog targets₀ k = some s) :
    k ≤ prog.length := by
  by_contra hgt
  obtain ⟨s', hs'⟩ := stateFrom_of_le (Nat.le_of_not_le hgt) h
  obtain ⟨s'', hs''⟩ := stateFrom_of_le (Nat.lt_of_not_le hgt) h
  rw [stateFrom_succ, hs'] at hs''
  simp at hs''

theorem le_of_mergedAt {k : ℕ} {m : α} (h : S.mergedAt abs₀ prog targets₀ k = some m) :
    k ≤ prog.length := by
  obtain ⟨s, hs, -⟩ := Option.map_eq_some_iff.mp h
  exact le_of_stateAt hs

theorem mergesAt_iff {k : ℕ} : S.mergesAt abs₀ prog targets₀ k = true ↔
    ∃ s, S.stateAt abs₀ prog targets₀ k = some s ∧ ∃ x, s.2 k = some x := by
  unfold mergesAt
  cases S.stateAt abs₀ prog targets₀ k with
  | none => simp
  | some s => simp [Option.isSome_iff_exists]

/-- **The invariant rule for passes**: what holds at the start and is kept by every instruction
holds on reaching each one. -/
theorem stateAt_invariant {P : α → Targets α → Prop} (h₀ : P abs₀ targets₀)
    (hstep : ∀ {k : ℕ} {insn : ι} {abs abs' : α} {targets targets' : Targets α},
      prog[k]? = some insn → P abs targets →
      S.checkInsn abs insn k targets = some (abs', targets') → P abs' targets') :
    ∀ {k : ℕ} {s : α × Targets α}, S.stateAt abs₀ prog targets₀ k = some s → P s.1 s.2
  | 0, s, hs => by
      rw [stateAt, stateFrom] at hs
      obtain rfl := Option.some.inj hs
      exact h₀
  | k + 1, s', hs' => by
      have hsucc := hs'
      rw [stateAt, stateFrom_succ] at hsucc
      obtain ⟨s, hs, hcheck⟩ := Option.bind_eq_some_iff.mp hsucc
      obtain ⟨insn, hinsn, hcheck⟩ := Option.bind_eq_some_iff.mp hcheck
      rw [Int.zero_add] at hcheck
      exact hstep hinsn (stateAt_invariant h₀ hstep hs) hcheck

/-- What an instruction of the pass does. -/
theorem checkInsn_eq_some {abs abs' : α} {insn : ι} {pc : Int} {targets targets' : Targets α} :
    S.checkInsn abs insn pc targets = some (abs', targets') ↔
      ∃ edge, S.transfer (S.applyTargets abs pc targets).1 insn pc = some (abs', edge) ∧
        targets' = match edge with
          | none => (S.applyTargets abs pc targets).2
          | some e => S.addTarget (S.applyTargets abs pc targets).2 e.1 e.2 := by
  simp only [checkInsn]
  cases S.transfer (S.applyTargets abs pc targets).1 insn pc with
  | none => simp
  | some r =>
    obtain ⟨fall, edge⟩ := r
    cases edge <;> simp [eq_comm]

/-- What is saved at a position after a join was saved there before it. -/
theorem saved_of_applyTargets {abs s : α} {pc i : Int} {targets : Targets α}
    (h : (S.applyTargets abs pc targets).2 i = some s) : targets i = some s := by
  unfold applyTargets at h
  cases hpc : targets pc with
  | none => simpa [hpc] using h
  | some saved =>
    simp only [hpc] at h
    split at h
    · cases h
    · exact h

/-- A property closed under joins holds of a merged state. -/
theorem applyTargets_of_closed {p : α → Prop} (hjoin : ∀ {a b}, p a → p b → p (S.join a b))
    {abs : α} {targets : Targets α} (habs : p abs) (hsaved : ∀ i s, targets i = some s → p s)
    (pc : Int) :
    p (S.applyTargets abs pc targets).1 := by
  unfold applyTargets
  cases hpc : targets pc with
  | none => exact habs
  | some saved => exact hjoin habs (hsaved pc saved hpc)

/-- **A property closed under joins and transfers** holds of every state the pass holds or has
saved. -/
theorem stateAt_of_closed {p : α → Prop} (h₀ : p abs₀) (hsaved : ∀ i s, targets₀ i = some s → p s)
    (hjoin : ∀ {a b}, p a → p b → p (S.join a b))
    (htransfer : ∀ {k : ℕ} {insn : ι} {abs fall : α} {edge : Option (Int × α)},
      prog[k]? = some insn → p abs → S.transfer abs insn k = some (fall, edge) →
      p fall ∧ ∀ e, edge = some e → p e.2) {k : ℕ} {s : α × Targets α}
    (hs : S.stateAt abs₀ prog targets₀ k = some s) : p s.1 ∧ ∀ i x, s.2 i = some x → p x := by
  refine stateAt_invariant
    (P := fun abs targets => p abs ∧ ∀ i s, targets i = some s → p s) ⟨h₀, hsaved⟩ ?_ hs
  intro j insn abs abs' targets targets' hinsn hP hcheck
  obtain ⟨edge, htr, rfl⟩ := checkInsn_eq_some.mp hcheck
  obtain ⟨hfall, hedge⟩ := htransfer hinsn (applyTargets_of_closed hjoin hP.1 hP.2 j) htr
  refine ⟨hfall, fun i s hs => ?_⟩
  cases edge with
  | none => exact hP.2 i s (saved_of_applyTargets hs)
  | some e =>
    simp only [addTarget] at hs
    split at hs
    · cases hi : (S.applyTargets abs j targets).2 i with
      | none =>
        simp only [hi, Option.some.injEq] at hs
        exact hs ▸ hedge e rfl
      | some x =>
        simp only [hi, Option.some.injEq] at hs
        exact hs ▸ hjoin (hP.2 i x (saved_of_applyTargets hi)) (hedge e rfl)
    · exact hP.2 i s (saved_of_applyTargets hs)

/-- **States are saved only for the targets of jumps.** -/
theorem saved_of_edges {q : Int → Prop} (hsaved : ∀ i s, targets₀ i = some s → q i)
    (htransfer : ∀ {k : ℕ} {insn : ι} {abs fall : α} {e : Int × α}, prog[k]? = some insn →
      S.transfer abs insn k = some (fall, some e) → q e.1) {k : ℕ} {s : α × Targets α}
    (hs : S.stateAt abs₀ prog targets₀ k = some s) {i : Int} {x : α} (hx : s.2 i = some x) :
    q i := by
  refine stateAt_invariant (P := fun _ targets => ∀ i x, targets i = some x → q i) hsaved ?_ hs
    i x hx
  intro j insn abs abs' targets targets' hinsn hP hcheck i x hx
  obtain ⟨edge, htr, rfl⟩ := checkInsn_eq_some.mp hcheck
  cases edge with
  | none => exact hP i x (saved_of_applyTargets hx)
  | some e =>
    simp only [addTarget] at hx
    split at hx
    · next heq => exact heq ▸ htransfer hinsn htr
    · exact hP i x (saved_of_applyTargets hx)

/-- **What an accepting pass does at an instruction**: the transfer succeeds on the merged state,
and the next state is its result. -/
theorem accepts_step (h : S.loop abs₀ prog 0 targets₀ = true) {k : ℕ} {insn : ι}
    (hk : prog[k]? = some insn) :
    ∃ abs targets abs' edge, S.stateAt abs₀ prog targets₀ k = some (abs, targets) ∧
      S.mergedAt abs₀ prog targets₀ k = some (S.applyTargets abs k targets).1 ∧
      S.transfer (S.applyTargets abs k targets).1 insn k = some (abs', edge) ∧
      S.stateAt abs₀ prog targets₀ (k + 1) = some (abs',
        match edge with
        | none => (S.applyTargets abs k targets).2
        | some e => S.addTarget (S.applyTargets abs k targets).2 e.1 e.2) := by
  have hlt : k < prog.length := (List.getElem?_eq_some_iff.mp hk).1
  obtain ⟨send, hend⟩ := loop_iff_stateFrom.mp h
  obtain ⟨s', hs'⟩ := stateFrom_of_le hlt hend
  obtain ⟨⟨abs, targets⟩, hs⟩ := stateFrom_of_le (Nat.le_of_lt hlt) hend
  have hcheck : S.checkInsn abs insn k targets = some s' := by
    simpa [stateFrom_succ, hs, hk] using hs'
  have hstate : S.stateAt abs₀ prog targets₀ k = some (abs, targets) := hs
  have hmerged : S.mergedAt abs₀ prog targets₀ k = some (S.applyTargets abs k targets).1 := by
    simp [mergedAt, hstate]
  rw [checkInsn] at hcheck
  simp only at hcheck
  cases htr : S.transfer (S.applyTargets abs k targets).1 insn k with
  | none => simp [htr] at hcheck
  | some r =>
    obtain ⟨abs', edge⟩ := r
    refine ⟨abs, targets, abs', edge, hstate, hmerged, htr, ?_⟩
    cases edge with
    | none =>
      simp only [htr] at hcheck
      rw [stateAt, hs', ← Option.some.inj hcheck]
    | some e =>
      obtain ⟨target, state⟩ := e
      simp only [htr] at hcheck
      rw [stateAt, hs', ← Option.some.inj hcheck]

/-- The merged state of an accepting pass, and its transfer. -/
theorem transfer_mergedAt (h : S.loop abs₀ prog 0 targets₀ = true) {k : ℕ} {insn : ι}
    (hk : prog[k]? = some insn) :
    ∃ abs abs' edge, S.mergedAt abs₀ prog targets₀ k = some abs ∧
      S.transfer abs insn k = some (abs', edge) := by
  obtain ⟨abs, targets, abs', edge, -, hm, htr, -⟩ := accepts_step h hk
  exact ⟨_, abs', edge, hm, htr⟩

/-! ## Joins that are upper bounds -/

variable (S) in
/-- The join is an upper bound of an order on the states. -/
structure UpperBounds (le : α → α → Prop) : Prop where
  refl : ∀ a, le a a
  trans : ∀ {a b c}, le a b → le b c → le a c
  left : ∀ a b, le a (S.join a b)
  right : ∀ a b, le b (S.join a b)

variable {le : α → α → Prop}

/-- Joining in what was saved only goes up. -/
theorem UpperBounds.le_applyTargets (hub : S.UpperBounds le) (abs : α) (pc : Int)
    (targets : Targets α) : le abs (S.applyTargets abs pc targets).1 := by
  unfold applyTargets
  cases targets pc with
  | none => exact hub.refl abs
  | some saved => exact hub.left abs saved

/-- A state saved for a target stays below what is saved there. -/
theorem UpperBounds.saved_addTarget (hub : S.UpperBounds le) {targets : Targets α}
    {target pc : Int} {s x state : α} (hx : targets target = some x) (hle : le s x) :
    ∃ y, S.addTarget targets pc state target = some y ∧ le s y := by
  unfold addTarget
  split
  · rw [hx]
    exact ⟨_, rfl, hub.trans hle (hub.left x state)⟩
  · exact ⟨x, hx, hle⟩

/-- A state is below what is saved for its target right after it was saved. -/
theorem UpperBounds.saved_addTarget_self (hub : S.UpperBounds le) (targets : Targets α)
    (target : Int) (state : α) :
    ∃ y, S.addTarget targets target state target = some y ∧ le state y := by
  unfold addTarget
  rw [if_pos rfl]
  cases targets target with
  | none => exact ⟨state, rfl, hub.refl state⟩
  | some existing => exact ⟨_, rfl, hub.right existing state⟩

/-- Up to its target, the pass keeps a saved state. -/
theorem UpperBounds.saved_stateAt (hub : S.UpperBounds le)
    (h : S.loop abs₀ prog 0 targets₀ = true) {target : ℕ} {s : α} {j k : ℕ}
    (hjk : j ≤ k) (hk : k ≤ target) (hlen : target ≤ prog.length)
    (hj : ∃ abs targets x, S.stateAt abs₀ prog targets₀ j = some (abs, targets) ∧
      targets target = some x ∧ le s x) :
    ∃ abs targets x, S.stateAt abs₀ prog targets₀ k = some (abs, targets) ∧
      targets target = some x ∧ le s x := by
  induction hjk with
  | refl => exact hj
  | @step k _ ih =>
    obtain ⟨abs, targets, x, hstate, hx, hle⟩ := ih (Nat.le_of_succ_le hk)
    have hlt : k < prog.length := Nat.lt_of_lt_of_le hk hlen
    obtain ⟨abs₁, targets₁, abs', edge, hstate₁, -, -, hnext⟩ :=
      accepts_step h (List.getElem?_eq_getElem hlt)
    obtain ⟨rfl, rfl⟩ := Prod.ext_iff.mp (Option.some.inj (hstate.symm.trans hstate₁))
    -- the instruction before the target does not clear what is saved for it
    have hkeep : (S.applyTargets abs k targets).2 target = some x := by
      unfold applyTargets
      cases targets k with
      | none => exact hx
      | some saved =>
        have hne : (target : Int) ≠ k := by omega
        simp [hne, hx]
    cases edge with
    | none => exact ⟨abs', _, x, hnext, hkeep, hle⟩
    | some e =>
      obtain ⟨y, hy, hley⟩ := hub.saved_addTarget hkeep hle
      exact ⟨abs', _, y, hnext, hy, hley⟩

/-- **The state that falls through is below the merged one.** -/
theorem UpperBounds.le_mergedAt_succ (hub : S.UpperBounds le)
    (h : S.loop abs₀ prog 0 targets₀ = true) {k : ℕ} {insn : ι}
    (hk : prog[k]? = some insn) {abs abs' : α} {edge : Option (Int × α)}
    (hm : S.mergedAt abs₀ prog targets₀ k = some abs)
    (htr : S.transfer abs insn k = some (abs', edge)) :
    ∃ m, S.mergedAt abs₀ prog targets₀ (k + 1) = some m ∧ le abs' m := by
  obtain ⟨abs₁, targets₁, abs₁', edge₁, hstate, hm₁, htr₁, hnext⟩ := accepts_step h hk
  obtain rfl := Option.some.inj (hm.symm.trans hm₁)
  obtain ⟨rfl, rfl⟩ := Prod.ext_iff.mp (Option.some.inj (htr.symm.trans htr₁))
  exact ⟨_, by rw [mergedAt, hnext]; rfl, hub.le_applyTargets _ _ _⟩

/-- **A state saved for an instruction further on is below the merged one there.** -/
theorem UpperBounds.le_mergedAt_target (hub : S.UpperBounds le)
    (h : S.loop abs₀ prog 0 targets₀ = true) {k : ℕ} {insn : ι}
    (hk : prog[k]? = some insn) {abs abs' : α} {target : ℕ} {state : α}
    (hm : S.mergedAt abs₀ prog targets₀ k = some abs)
    (htr : S.transfer abs insn k = some (abs', some ((target : Int), state))) (hlt : k < target)
    (hlen : target ≤ prog.length) :
    ∃ m, S.mergedAt abs₀ prog targets₀ target = some m ∧ le state m := by
  obtain ⟨abs₁, targets₁, abs₁', edge₁, hstate, hm₁, htr₁, hnext⟩ := accepts_step h hk
  obtain rfl := Option.some.inj (hm.symm.trans hm₁)
  obtain ⟨rfl, rfl⟩ := Prod.ext_iff.mp (Option.some.inj (htr.symm.trans htr₁))
  obtain ⟨y, hy, hley⟩ := hub.saved_addTarget_self (S.applyTargets abs₁ k targets₁).2 target state
  obtain ⟨abs₂, targets₂, x, hstate₂, hx, hle⟩ := hub.saved_stateAt h
    (Nat.succ_le_of_lt hlt) (Nat.le_refl target) hlen ⟨_, _, y, hnext, hy, hley⟩
  refine ⟨S.join abs₂ x, ?_, ?_⟩
  · simp [mergedAt, hstate₂, applyTargets, hx]
  · exact hub.trans hle (hub.right abs₂ x)

/-- Where nothing is joined in, the state is the one that fell through. -/
theorem mergedAt_succ (h : S.loop abs₀ prog 0 targets₀ = true) {k : ℕ} {insn : ι}
    (hk : prog[k]? = some insn) {abs abs' : α} {edge : Option (Int × α)}
    (hm : S.mergedAt abs₀ prog targets₀ k = some abs)
    (htr : S.transfer abs insn k = some (abs', edge))
    (hmerges : S.mergesAt abs₀ prog targets₀ (k + 1) = false) :
    S.mergedAt abs₀ prog targets₀ (k + 1) = some abs' := by
  obtain ⟨abs₁, targets₁, abs₁', edge₁, hstate, hm₁, htr₁, hnext⟩ := accepts_step h hk
  obtain rfl := Option.some.inj (hm.symm.trans hm₁)
  obtain ⟨rfl, rfl⟩ := Prod.ext_iff.mp (Option.some.inj (htr.symm.trans htr₁))
  obtain ⟨targets', hnext'⟩ : ∃ targets', S.stateAt abs₀ prog targets₀ (k + 1) =
      some (abs', targets') := ⟨_, hnext⟩
  have hnone : targets' ((k + 1 : ℕ) : Int) = none := by
    simpa [mergesAt, hnext'] using hmerges
  simp only [mergedAt, hnext', Option.map_some, applyTargets_none hnone]

/-- Something is joined in at the target of a jump from before it. -/
theorem mergesAt_target (h : S.loop abs₀ prog 0 targets₀ = true) {k : ℕ} {insn : ι}
    (hk : prog[k]? = some insn) {abs abs' : α} {target : ℕ} {state : α}
    (hm : S.mergedAt abs₀ prog targets₀ k = some abs)
    (htr : S.transfer abs insn k = some (abs', some ((target : Int), state))) (hlt : k < target)
    (hlen : target ≤ prog.length) : S.mergesAt abs₀ prog targets₀ target = true := by
  have hub : S.UpperBounds fun _ _ => True :=
    ⟨fun _ => trivial, fun _ _ => trivial, fun _ _ => trivial, fun _ _ => trivial⟩
  obtain ⟨abs₁, targets₁, abs₁', edge₁, hstate, hm₁, htr₁, hnext⟩ := accepts_step h hk
  obtain rfl := Option.some.inj (hm.symm.trans hm₁)
  obtain ⟨rfl, rfl⟩ := Prod.ext_iff.mp (Option.some.inj (htr.symm.trans htr₁))
  obtain ⟨y, hy, -⟩ := hub.saved_addTarget_self (S.applyTargets abs₁ k targets₁).2 target state
  obtain ⟨abs₂, targets₂, x, hstate₂, hx, -⟩ := hub.saved_stateAt (s := state) h
    (Nat.succ_le_of_lt hlt) (Nat.le_refl target) hlen ⟨_, _, y, hnext, hy, trivial⟩
  simp [mergesAt, hstate₂, hx]

end Accepts

/-! ## The states of loop heads -/

/-- **Every loop head is given the widened state**, when joining it with itself changes nothing. -/
theorem initLoopTargets_eq {branchOffset : ι → Option Int} {widened : α}
    (hjoin : S.join widened widened = widened) {prog : List ι} {pc : Int} {targets : Targets α}
    (h : ∀ i, targets i = none ∨ targets i = some widened) (i : Int) :
    S.initLoopTargets branchOffset widened prog pc targets i = none ∨
      S.initLoopTargets branchOffset widened prog pc targets i = some widened := by
  induction prog generalizing pc targets with
  | nil => exact h i
  | cons insn rest ih =>
    rw [initLoopTargets]
    apply ih
    intro j
    have hadd (target : Int) : S.addTarget targets target widened j = none ∨
        S.addTarget targets target widened j = some widened := by
      unfold addTarget
      split
      · rcases h j with hj | hj <;> simp [hj, hjoin]
      · exact h j
    cases branchOffset insn with
    | none => exact h j
    | some off =>
      dsimp only
      split
      · exact hadd _
      · exact h j

/-- **Only loop heads are given a state.** -/
theorem initLoopTargets_some {branchOffset : ι → Option Int} {widened x : α} {prog : List ι}
    {pc i : Int} {targets : Targets α}
    (h : S.initLoopTargets branchOffset widened prog pc targets i = some x) :
    (∃ y, targets i = some y) ∨ ∃ j insn off, prog[j]? = some insn ∧ branchOffset insn = some off ∧
      off < 0 ∧ pc + (j : ℕ) + 1 + off = i := by
  induction prog generalizing pc targets with
  | nil => exact Or.inl ⟨x, h⟩
  | cons insn rest ih =>
    rw [initLoopTargets] at h
    rcases ih h with ⟨y, hy⟩ | ⟨j, insn', off, hj, hoff, hneg, hi⟩
    · cases hbranch : branchOffset insn with
      | none => exact Or.inl ⟨y, by simpa [hbranch] using hy⟩
      | some off =>
        simp only [hbranch] at hy
        split at hy
        · next hle =>
          simp only [addTarget] at hy
          split at hy
          · next heq =>
            exact Or.inr ⟨0, insn, off, rfl, hbranch, by omega, by simpa using heq.symm⟩
          · exact Or.inl ⟨y, hy⟩
        · exact Or.inl ⟨y, hy⟩
    · exact Or.inr ⟨j + 1, insn', off, hj, hoff, hneg, by omega⟩

end Scanner
