import BpfVerifier.Properties.Transfers
import BpfVerifier.Soundness.Memory
import BpfVerifier.Soundness.Merge

/-!
# Properties/Merges — what widening and pruning cover

`Means` is the relation of a verifier state to the machine states it describes, the bounds of a
scalar read as recorded.  Widening keeps every value of two scalars (`widen_isWord`); a machine
state of either side is one of the widened state exactly when the types the loop head keeps are
right about it (`widen_covers_iff`), and one of a pruned state is one of the state it is pruned for
exactly when the spills that one tracks are (`prune_covers_iff`).
-/

namespace BpfVerifier

open Word

variable (L : Layout) (sized : ℕ → BitVec 32 → BitVec 64 → Prop)

/-! ## What a state describes -/

/-- The values a register state describes. -/
structure RegMeans (ρ : ℕ → Val) (r : RegState) (v : Val) : Prop where
  type : TypeHolds L sized ρ r.regType v
  bounds : r.regType = .scalar → r.Admits v.bits

/-- The machine states of a verifier state, with the values `ρ` of the nullable pointers. -/
structure MeansWith (ρ : ℕ → Val) (state : VerifierState) (stack : StackState)
    (c : MState) : Prop where
  regs : ∀ r, RegMeans L sized ρ (state.get r) (c.regs r)
  spills : ∀ o r, stack.getSpill o = some r → RegMeans L sized ρ r (readFrame c.frame o .dw)
  init : ∀ o i, StackState.toIndex o = some i → stack.init i = true → c.written o = true

/-- **The machine states a verifier state describes.** -/
def Means (state : VerifierState) (stack : StackState) (c : MState) : Prop :=
  ∃ ρ, MeansWith L sized ρ state stack c

/-- Every tnum of the state satisfies its invariant. -/
structure TnumsWf (state : VerifierState) (stack : StackState) : Prop where
  regs : ∀ r, (state.get r).tnum.Wf
  spills : ∀ o r, stack.getSpill o = some r → r.tnum.Wf

variable {L sized} {ρ : ℕ → Val} {s p s₁ s₂ : VerifierState} {t q t₁ t₂ : StackState} {c : MState}
  {a b : RegState} {v : Val} {x : BitVec 64}

theorem regMeans_uninit (h : a.regType = .uninit) : RegMeans L sized ρ a v := by
  refine ⟨?_, fun hs => ?_⟩
  · rw [h]
    trivial
  · rw [h] at hs
    cases hs

/-- The states the verifier visits satisfy the invariant of their tnums. -/
theorem Program.Visits.tnumsWf {p : Program} {v : Visit} (h : p.Visits v) :
    TnumsWf v.state v.stack :=
  ⟨fun r => (h.wf.regs r).tnum, fun o r hr => (h.wf.spills o r hr).tnum⟩

/-! ## Scalars -/

theorem RegState.Admits.widenScalar (ha : a.tnum.Wf) (hb : b.tnum.Wf)
    (h : a.Admits x ∨ b.Admits x) : (a.widenScalar b).Admits x := by
  have htnum : (a.widenScalar b).tnum.Has x := by
    rcases h with h | h
    · rw [RegState.tnum_widenScalar_comm]
      exact RegState.has_widenScalar hb h.tnum
    · exact RegState.has_widenScalar ha h.tnum
  simp only [RegState.admits_iff] at h
  obtain ⟨humin, humax, hsmin, hsmax⟩ := RegState.widenScalar_bounds a b
  exact ⟨htnum, by omega, by omega, by omega, by omega⟩

/-- **Widening two scalars loses no value.** -/
theorem widen_isWord (ha : a.regType = .scalar) (hb : b.regType = .scalar) (hwa : a.tnum.Wf)
    (hwb : b.tnum.Wf) :
    (∀ x, a.IsWord x ∨ b.IsWord x → (a.widen b).IsWord x) ∧ (a.widen b).tnum.Wf := by
  rw [RegState.widen_of_scalar ha hb]
  refine ⟨fun x h => ⟨RegState.regType_refineBounds _, ?_⟩,
    RegState.tnumWf_refineBounds (RegState.tnumWf_widenScalar hwa hwb)⟩
  have hadmits : a.Admits x ∨ b.Admits x := h.imp RegState.IsWord.admits RegState.IsWord.admits
  exact (RegState.Admits.widenScalar hwa hwb hadmits).refineBounds

theorem widen_isWord_constants :
    (∀ x, (RegState.scalarValue 1).IsWord x ∨ (RegState.scalarValue 6).IsWord x →
        ((RegState.scalarValue 1).widen (.scalarValue 6)).IsWord x) ∧
      ((RegState.scalarValue 1).widen (.scalarValue 6)).tnum.Wf :=
  widen_isWord rfl rfl (Tnum.wf_constant 1) (Tnum.wf_constant 6)

/-! ## Widening -/

variable (L sized) in
/-- What the loop head records of a register in `a` stands where `b` comes in: one side is not
initialised, or the type is right about the value, and the bounds are unless both are scalars. -/
def Stands (ρ : ℕ → Val) (a b : RegState) (v : Val) : Prop :=
  a.regType = .uninit ∨ b.regType = .uninit ∨
    TypeHolds L sized ρ a.regType v ∧
      (a.regType = .scalar → b.regType ≠ .scalar → a.Admits v.bits)

variable (L sized) in
/-- **What the loop head keeps of its own is right** about a machine state that comes in from
`(s₂, t₂)`. -/
structure HeadStands (ρ : ℕ → Val) (s₁ s₂ : VerifierState) (t₁ t₂ : StackState)
    (c : MState) : Prop where
  regs : ∀ r, Stands L sized ρ (s₁.get r) (s₂.get r) (c.regs r)
  spills : ∀ o a b, t₁.getSpill o = some a → t₂.getSpill o = some b →
    Stands L sized ρ a b (readFrame c.frame o .dw)
  kept : ∀ o a, t₁.getSpill o = some a → t₂.getSpill o = none →
    RegMeans L sized ρ a (readFrame c.frame o .dw)

/-- What the first register describes the widened one does. -/
theorem RegMeans.widen_left (ha : a.tnum.Wf) (hb : b.tnum.Wf) (h : RegMeans L sized ρ a v) :
    RegMeans L sized ρ (a.widen b) v := by
  by_cases ht : a.regType = b.regType
  · by_cases hs : a.regType = .scalar
    · have hbs : b.regType = .scalar := ht ▸ hs
      rw [RegState.widen_of_scalar hs hbs]
      have hadmits := RegState.Admits.widenScalar ha hb (Or.inl (h.bounds hs))
      refine ⟨?_, fun _ => hadmits.refineBounds⟩
      rw [RegState.regType_refineBounds]
      trivial
    · rw [RegState.widen_of_eq ht hs]
      exact h
  · rw [RegState.widen_of_ne ht]
    split
    · exact regMeans_uninit rfl
    · exact h

/-- What the second register describes the widened one does, just when the first one stands. -/
theorem regMeans_widen_iff (ha : a.tnum.Wf) (hb : b.tnum.Wf) {ρ' : ℕ → Val}
    (h : RegMeans L sized ρ' b v) :
    RegMeans L sized ρ (a.widen b) v ↔ Stands L sized ρ a b v := by
  by_cases ht : a.regType = b.regType
  · by_cases hs : a.regType = .scalar
    · have hbs : b.regType = .scalar := ht ▸ hs
      have hadmits := RegState.Admits.widenScalar ha hb (Or.inr (h.bounds hbs))
      rw [RegState.widen_of_scalar hs hbs]
      refine iff_of_true ⟨?_, fun _ => hadmits.refineBounds⟩
        (Or.inr (Or.inr ⟨?_, fun _ hne => absurd hbs hne⟩))
      · rw [RegState.regType_refineBounds]
        trivial
      · rw [hs]
        trivial
    · rw [RegState.widen_of_eq ht hs]
      constructor
      · exact fun h => Or.inr (Or.inr ⟨h.type, fun hs' => absurd hs' hs⟩)
      · rintro (hu | hu | ⟨htype, -⟩)
        · exact regMeans_uninit hu
        · exact regMeans_uninit (ht.trans hu)
        · exact ⟨htype, fun hs' => absurd hs' hs⟩
  · rw [RegState.widen_of_ne ht]
    split
    · next hu =>
      refine iff_of_true (regMeans_uninit rfl) ?_
      exact hu.elim Or.inl fun hu => Or.inr (Or.inl hu)
    · next hu =>
      constructor
      · exact fun h => Or.inr (Or.inr ⟨h.type, fun hs _ => h.bounds hs⟩)
      · rintro (hu' | hu' | ⟨htype, hbounds⟩)
        · exact absurd (Or.inl hu') hu
        · exact absurd (Or.inr hu') hu
        · exact ⟨htype, fun hs => hbounds hs fun hbs => ht (hs.trans hbs.symm)⟩

/-- What the loop head describes the widened state does. -/
theorem MeansWith.widen_left (h₁ : TnumsWf s₁ t₁) (h₂ : TnumsWf s₂ t₂)
    (h : MeansWith L sized ρ s₁ t₁ c) : MeansWith L sized ρ (s₁.widen s₂) (t₁.widen t₂) c where
  regs r := (h.regs r).widen_left (h₁.regs r) (h₂.regs r)
  spills o r hr := by
    rw [StackState.getSpill_widen] at hr
    obtain ⟨a, ha, rfl⟩ := Option.map_eq_some_iff.mp hr
    cases hb : t₂.getSpill o with
    | none => exact h.spills o a ha
    | some b => exact (h.spills o a ha).widen_left (h₁.spills o a ha) (h₂.spills o b hb)
  init o i ho hi := h.init o i ho (Bool.and_eq_true_iff.mp hi).1

/-- What comes in the widened state describes, just when what the loop head keeps is right. -/
theorem meansWith_widen_iff (h₁ : TnumsWf s₁ t₁) (h₂ : TnumsWf s₂ t₂) {ρ' : ℕ → Val}
    (h : MeansWith L sized ρ' s₂ t₂ c) :
    MeansWith L sized ρ (s₁.widen s₂) (t₁.widen t₂) c ↔ HeadStands L sized ρ s₁ s₂ t₁ t₂ c := by
  have hreg (r : Reg) := regMeans_widen_iff (ρ := ρ) (h₁.regs r) (h₂.regs r) (h.regs r)
  have hspill {o : BitVec 64} {a b : RegState} (ha : t₁.getSpill o = some a)
      (hb : t₂.getSpill o = some b) :=
    regMeans_widen_iff (ρ := ρ) (h₁.spills o a ha) (h₂.spills o b hb) (h.spills o b hb)
  constructor
  · intro hw
    refine ⟨fun r => (hreg r).mp (hw.regs r), fun o a b ha hb => (hspill ha hb).mp ?_,
      fun o a ha hb => ?_⟩
    · exact hw.spills o _ (by rw [StackState.getSpill_widen, ha, Option.map_some, hb])
    · exact hw.spills o _ (by rw [StackState.getSpill_widen, ha, Option.map_some, hb])
  · intro hk
    refine ⟨fun r => (hreg r).mpr (hk.regs r), fun o r hr => ?_, fun o i ho hi => ?_⟩
    · rw [StackState.getSpill_widen] at hr
      obtain ⟨a, ha, rfl⟩ := Option.map_eq_some_iff.mp hr
      cases hb : t₂.getSpill o with
      | none => exact hk.kept o a ha hb
      | some b => exact (hspill ha hb).mpr (hk.spills o a b ha hb)
    · exact h.init o i ho (Bool.and_eq_true_iff.mp hi).2

/-- The widened state describes what either side does exactly when the types and bounds the loop
head keeps of its own are right about what comes in. -/
theorem means_widen_iff (h₁ : TnumsWf s₁ t₁) (h₂ : TnumsWf s₂ t₂) :
    (Means L sized s₁ t₁ c ∨ Means L sized s₂ t₂ c →
        Means L sized (s₁.widen s₂) (t₁.widen t₂) c) ↔
      (Means L sized s₂ t₂ c → ∃ ρ, HeadStands L sized ρ s₁ s₂ t₁ t₂ c) := by
  constructor
  · intro hall h
    obtain ⟨ρ', h'⟩ := h
    obtain ⟨ρ, hw⟩ := hall (Or.inr ⟨ρ', h'⟩)
    exact ⟨ρ, (meansWith_widen_iff h₁ h₂ h').mp hw⟩
  · rintro hstands (⟨ρ, h⟩ | ⟨ρ', h⟩)
    · exact ⟨ρ, h.widen_left h₁ h₂⟩
    · obtain ⟨ρ, hk⟩ := hstands ⟨ρ', h⟩
      exact ⟨ρ, (meansWith_widen_iff h₁ h₂ h).mpr hk⟩

/-- The types agree wherever both registers are initialised. -/
def Alike (a b : RegState) : Prop :=
  a.regType = .uninit ∨ b.regType = .uninit ∨ a.regType = b.regType

/-- A register of the same type stands. -/
theorem RegMeans.stands (h : RegMeans L sized ρ b v) (hab : Alike a b) :
    Stands L sized ρ a b v := by
  refine hab.imp id (Or.imp id fun ht => ?_)
  rw [ht]
  exact ⟨h.type, fun hs hne => absurd hs hne⟩

/-- Where no type changes, widening covers both sides. -/
theorem widen_covers_of_alike (h₁ : TnumsWf s₁ t₁) (h₂ : TnumsWf s₂ t₂)
    (hregs : ∀ r, Alike (s₁.get r) (s₂.get r))
    (hspills : ∀ o a, t₁.getSpill o = some a → ∃ b, t₂.getSpill o = some b ∧ Alike a b)
    (h : Means L sized s₁ t₁ c ∨ Means L sized s₂ t₂ c) :
    Means L sized (s₁.widen s₂) (t₁.widen t₂) c := by
  refine (means_widen_iff h₁ h₂).mpr ?_ h
  rintro ⟨ρ, h⟩
  refine ⟨ρ, fun r => (h.regs r).stands (hregs r), fun o a b ha hb => ?_, fun o a ha hb => ?_⟩
  · obtain ⟨b', hb', hab⟩ := hspills o a ha
    obtain rfl := Option.some.inj (hb.symm.trans hb')
    exact (h.spills o b hb).stands hab
  · obtain ⟨b, hb', -⟩ := hspills o a ha
    rw [hb] at hb'
    cases hb'

/-- **The widened state describes what either side does** exactly when the types and bounds the loop
head keeps of its own are right about what comes in.  Where no type changes they are. -/
theorem widen_covers_iff (h₁ : TnumsWf s₁ t₁) (h₂ : TnumsWf s₂ t₂) :
    ((Means L sized s₁ t₁ c ∨ Means L sized s₂ t₂ c →
        Means L sized (s₁.widen s₂) (t₁.widen t₂) c) ↔
      (Means L sized s₂ t₂ c → ∃ ρ, HeadStands L sized ρ s₁ s₂ t₁ t₂ c)) ∧
    ((∀ r, Alike (s₁.get r) (s₂.get r)) →
      (∀ o a, t₁.getSpill o = some a → ∃ b, t₂.getSpill o = some b ∧ Alike a b) →
      Means L sized s₁ t₁ c ∨ Means L sized s₂ t₂ c →
        Means L sized (s₁.widen s₂) (t₁.widen t₂) c) :=
  ⟨means_widen_iff h₁ h₂, widen_covers_of_alike h₁ h₂⟩

/-- A machine state whose r2 points into the frame. -/
def pointing (o : BitVec 64) : MState :=
  { MState.fresh .flat with
    regs := Function.update (MState.fresh .flat).regs .r2 ⟨Layout.flat.frameTop + o, .frame⟩ }

/-- The verifier state of `pointing`. -/
def tracking (o : BitVec 64) : VerifierState := VerifierState.entry.set .r2 (.framePtr o)

theorem tnumsWf_tracking (o : BitVec 64) : TnumsWf (tracking o) .new :=
  ⟨fun r => by cases r <;> exact Tnum.wf_unknown,
    fun _ _ hr => by cases hr⟩

theorem means_tracking (o : BitVec 64) :
    Means Layout.flat (fun _ _ _ => True) (tracking o) .new (pointing o) := by
  refine ⟨fun _ => .number 0, fun r => ?_, fun o r hr => (by cases hr),
    fun o i _ hi => (by cases hi)⟩
  cases r with
  | r1 | r2 | r10 => exact ⟨rfl, fun hs => by cases hs⟩
  | _ => exact regMeans_uninit rfl

theorem widen_covers_tracking :
    ((Means Layout.flat (fun _ _ _ => True) (tracking (-8)) .new (pointing (-8)) ∨
          Means Layout.flat (fun _ _ _ => True) (tracking (-16)) .new (pointing (-8)) →
        Means Layout.flat (fun _ _ _ => True) ((tracking (-8)).widen (tracking (-16)))
          (StackState.new.widen .new) (pointing (-8))) ↔
      (Means Layout.flat (fun _ _ _ => True) (tracking (-16)) .new (pointing (-8)) →
        ∃ ρ, HeadStands Layout.flat (fun _ _ _ => True) ρ (tracking (-8)) (tracking (-16)) .new .new
          (pointing (-8)))) ∧
    ((∀ r, Alike ((tracking (-8)).get r) ((tracking (-16)).get r)) →
      (∀ o a, StackState.new.getSpill o = some a →
        ∃ b, StackState.new.getSpill o = some b ∧ Alike a b) →
      Means Layout.flat (fun _ _ _ => True) (tracking (-8)) .new (pointing (-8)) ∨
          Means Layout.flat (fun _ _ _ => True) (tracking (-16)) .new (pointing (-8)) →
        Means Layout.flat (fun _ _ _ => True) ((tracking (-8)).widen (tracking (-16)))
          (StackState.new.widen .new) (pointing (-8))) :=
  widen_covers_iff (tnumsWf_tracking (-8)) (tnumsWf_tracking (-16))

/-- **Another frame offset than the loop head's is forgotten.** -/
theorem not_widen_covers : ¬∀ (s₁ s₂ : VerifierState) (t₁ t₂ : StackState) (c : MState),
    TnumsWf s₁ t₁ → TnumsWf s₂ t₂ →
      Means Layout.flat (fun _ _ _ => True) s₁ t₁ c ∨
        Means Layout.flat (fun _ _ _ => True) s₂ t₂ c →
      Means Layout.flat (fun _ _ _ => True) (s₁.widen s₂) (t₁.widen t₂) c := by
  intro hall
  obtain ⟨ρ, h⟩ := hall (tracking (-8)) (tracking (-16)) .new .new (pointing (-16))
    (tnumsWf_tracking _) (tnumsWf_tracking _) (Or.inr (means_tracking _))
  have htype : (pointing (-16)).regs .r2 = ⟨Layout.flat.frameTop + -8, .frame⟩ := (h.regs .r2).type
  exact absurd htype (by decide)

/-! ## Pruning -/

/-- The values of a subsumed register are the subsuming one's. -/
theorem RegMeans.of_isSubstateOf (h : RegMeans L sized ρ a v) (hs : a.isSubstateOf b = true)
    (hw : b.regType = .scalar → b.tnum.Wf) : RegMeans L sized ρ b v := by
  have ht := RegState.regType_of_isSubstateOf hs
  refine ⟨ht ▸ h.type, fun hb => ?_⟩
  have ha : a.regType = .scalar := ht.trans hb
  have hbounds := h.bounds ha
  obtain ⟨hlo, hhi, hslo, hshi, -, -⟩ := RegState.bounds_of_isSubstateOf ha hs
  exact
    { tnum := RegState.has_of_isSubstateOf hbounds.tnum ha hs (hw hb)
      umin := Nat.le_trans hlo hbounds.umin
      umax := Nat.le_trans hbounds.umax hhi
      smin := Int.le_trans hslo hbounds.smin
      smax := Int.le_trans hbounds.smax hshi }

variable (L sized) in
/-- **What the test does not compare holds**: the scalars of `p` have well-formed tnums, and the
spills of `q` are right about the machine state, with `ρ` that fits the registers of `s`. -/
structure Uncompared (ρ : ℕ → Val) (s p : VerifierState) (q : StackState) (c : MState) : Prop where
  tnums : ∀ r, (p.get r).regType = .scalar → (p.get r).tnum.Wf
  types : ∀ r, TypeHolds L sized ρ (s.get r).regType (c.regs r)
  spills : ∀ o r, q.getSpill o = some r → RegMeans L sized ρ r (readFrame c.frame o .dw)

/-- A pruned state describes no more than the state it is pruned for exactly when what the test
does not compare holds. -/
theorem means_prune_iff (hs : s.isSubstateOf p = true) (ht : t.isSubstateOf q = true) :
    (Means L sized s t c → Means L sized p q c) ↔
      (Means L sized s t c → ∃ ρ, Uncompared L sized ρ s p q c) := by
  refine imp_congr_right fun h => ?_
  obtain ⟨ρ', h⟩ := h
  have hregs := VerifierState.isSubstateOf_iff.mp hs
  have htype (r : Reg) : (s.get r).regType = (p.get r).regType :=
    RegState.regType_of_isSubstateOf (hregs r)
  constructor
  · rintro ⟨ρ, hp⟩
    refine ⟨ρ, fun r hr => ((hp.regs r).bounds hr).tnum.wf, fun r => ?_, hp.spills⟩
    rw [htype]
    exact (hp.regs r).type
  · rintro ⟨ρ, hu⟩
    refine ⟨ρ, fun r => ⟨htype r ▸ hu.types r, fun hr => ?_⟩, hu.spills, fun o i ho hi => ?_⟩
    · exact ((h.regs r).of_isSubstateOf (hregs r) (hu.tnums r)).bounds hr
    · exact h.init o i ho (StackState.isSubstateOf_iff.mp ht i hi)

/-- Where the spills are compared as well, pruning is justified. -/
theorem prune_covers_of_spills (hw : TnumsWf p q) (hs : s.isSubstateOf p = true)
    (ht : t.isSubstateOf q = true)
    (hspills : ∀ o b, q.getSpill o = some b →
      ∃ a, t.getSpill o = some a ∧ a.isSubstateOf b = true)
    (h : Means L sized s t c) : Means L sized p q c := by
  refine (means_prune_iff hs ht).mpr ?_ h
  rintro ⟨ρ, h⟩
  refine ⟨ρ, fun r _ => hw.regs r, fun r => (h.regs r).type, fun o b hb => ?_⟩
  obtain ⟨a, ha, hab⟩ := hspills o b hb
  exact (h.spills o a ha).of_isSubstateOf hab fun _ => hw.spills o b hb

/-- **A pruned state describes no more than the state it is pruned for** exactly when what the test
does not compare holds.  Where the spills are compared as well it does. -/
theorem prune_covers_iff (hs : s.isSubstateOf p = true) (ht : t.isSubstateOf q = true) :
    ((Means L sized s t c → Means L sized p q c) ↔
      (Means L sized s t c → ∃ ρ, Uncompared L sized ρ s p q c)) ∧
    (TnumsWf p q →
      (∀ o b, q.getSpill o = some b → ∃ a, t.getSpill o = some a ∧ a.isSubstateOf b = true) →
        Means L sized s t c → Means L sized p q c) :=
  ⟨means_prune_iff hs ht, fun hw => prune_covers_of_spills hw hs ht⟩

/-- A word stored at -8. -/
def storedWord : StackState := StackState.new.markWritten (-8) 8

/-- The context pointer spilled there. -/
def storedCtx : StackState := StackState.new.spill (-8) (.ctxPtr 0)

/-- A machine state that stored a zero there. -/
def zeroed : MState := { MState.fresh .flat with written := fun o => o.toInt < 0 }

theorem isSubstateOf_storedWord : storedWord.isSubstateOf storedCtx = true :=
  StackState.isSubstateOf_iff.mpr fun _ hi => hi

theorem isSubstateOf_entry : VerifierState.entry.isSubstateOf .entry = true := by decide

/-- r0 is 5, where another path knows nothing of it. -/
def returnsFive : VerifierState := VerifierState.entry.set .r0 (.scalarValue 5)

def returnsNumber : VerifierState := VerifierState.entry.set .r0 .scalarUnknown

/-- A word stored below the spilled pointer. -/
def storedBelow : StackState := storedCtx.markWritten (-16) 8

theorem isSubstateOf_returnsNumber : returnsFive.isSubstateOf returnsNumber = true := by decide

theorem isSubstateOf_storedBelow : storedBelow.isSubstateOf storedCtx = true := by decide +kernel

theorem prune_covers_storedBelow :
    ((Means Layout.flat (fun _ _ _ => True) returnsFive storedBelow zeroed →
        Means Layout.flat (fun _ _ _ => True) returnsNumber storedCtx zeroed) ↔
      (Means Layout.flat (fun _ _ _ => True) returnsFive storedBelow zeroed →
        ∃ ρ, Uncompared Layout.flat (fun _ _ _ => True) ρ returnsFive returnsNumber storedCtx
          zeroed)) ∧
    (TnumsWf returnsNumber storedCtx →
      (∀ o b, storedCtx.getSpill o = some b →
        ∃ a, storedBelow.getSpill o = some a ∧ a.isSubstateOf b = true) →
      Means Layout.flat (fun _ _ _ => True) returnsFive storedBelow zeroed →
        Means Layout.flat (fun _ _ _ => True) returnsNumber storedCtx zeroed) :=
  prune_covers_iff isSubstateOf_returnsNumber isSubstateOf_storedBelow

/-- **A number is taken for the pointer spilled on another path.** -/
theorem not_prune_covers : ¬∀ (s p : VerifierState) (t q : StackState) (c : MState),
    s.isSubstateOf p = true → t.isSubstateOf q = true →
      Means Layout.flat (fun _ _ _ => True) s t c →
      Means Layout.flat (fun _ _ _ => True) p q c := by
  intro hall
  have hmeans : Means Layout.flat (fun _ _ _ => True) .entry storedWord zeroed := by
    refine ⟨fun _ => .number 0, fun r => ?_, fun o r hr => (by cases hr),
      fun o i ho _ => ?_⟩
    · cases r with
      | r1 | r10 => exact ⟨rfl, fun hs => by cases hs⟩
      | _ => exact regMeans_uninit rfl
    · exact decide_eq_true (toIndex_eq_some ho).2.1
  obtain ⟨ρ, h⟩ := hall .entry .entry storedWord storedCtx zeroed isSubstateOf_entry
    isSubstateOf_storedWord hmeans
  have htype : readFrame zeroed.frame (-8) .dw = ⟨Layout.flat.ctxBase + 0, .ctx⟩ :=
    (h.spills (-8) (.ctxPtr 0) (by decide)).type
  exact absurd htype (by decide)

end BpfVerifier
