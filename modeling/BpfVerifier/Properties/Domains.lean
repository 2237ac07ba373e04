import BpfVerifier.FstarAst.Refine
import BpfVerifier.FstarAst.VarCtx

/-!
# Properties/Domains — the abstract values of the typed AST and their operations

Intersection of tristate numbers is the intersection of what they match (`tnumIntersect_exact`), and
every refinement of a range at a branch keeps the values that take the branch (`refine_sound`).  The
join of two classes describes what both do, unless it merges two offsets into one map value
(`join_covers_iff`).
-/

namespace BpfVerifier.FstarAst

open ValClass VarCtx

/-! ## Intersection -/

/-- No bit disagrees exactly where the bits known in both are equal. -/
theorem disagree_eq_zero_iff {a b : Tnum} :
    ~~~(a.mask ||| b.mask) &&& (a.value ^^^ b.value) = 0 ↔ ∀ i < 64, a.mask.getLsbD i = false →
      b.mask.getLsbD i = false → a.value.getLsbD i = b.value.getLsbD i := by
  constructor
  · intro h i hi ha hb
    have hbit := congrArg (fun z : BitVec 64 => z.getLsbD i) h
    simp only [BitVec.getLsbD_and, BitVec.getLsbD_not, BitVec.getLsbD_or, BitVec.getLsbD_xor, ha,
      hb, hi] at hbit
    simpa using hbit
  · intro h
    apply BitVec.eq_of_getLsbD_eq
    intro i hi
    have hi' := h i hi
    simp only [BitVec.getLsbD_and, BitVec.getLsbD_not, BitVec.getLsbD_or, BitVec.getLsbD_xor, hi]
    cases ha : a.mask.getLsbD i <;> cases hb : b.mask.getLsbD i <;> simp_all

/-- **Intersection is exact.** -/
theorem tnumIntersect_exact (a b : Tnum) :
    (∀ c, tnumIntersect a b = some c → ∀ x, c.Has x ↔ a.Has x ∧ b.Has x) ∧
      (tnumIntersect a b = none → ∀ x, ¬(a.Has x ∧ b.Has x)) := by
  simp only [tnumIntersect, ne_eq, disagree_eq_zero_iff]
  constructor
  · intro c hc x
    split at hc
    · cases hc
    · next hagree =>
      obtain rfl := Option.some.inj hc
      simp only [Tnum.has_iff, BitVec.getLsbD_and, BitVec.getLsbD_or, ← forall_and]
      refine forall_congr' fun i => forall_congr' fun hi => ?_
      have hab := not_not.mp hagree i hi
      have ha := a.value_of_mask (i := i)
      have hb := b.value_of_mask (i := i)
      cases hma : a.mask.getLsbD i <;> cases hmb : b.mask.getLsbD i <;> simp_all
  · intro hnone x ⟨ha, hb⟩
    split at hnone
    · next hdisagree =>
      refine hdisagree fun i hi hma hmb => ?_
      rw [Tnum.has_iff.mp ha i hi, Tnum.has_iff.mp hb i hi, hma, hmb]
    · cases hnone

/-! ## Branches -/

/-- **A refinement is sound for a condition**: it keeps the values that meet it, and gives up only
where there are none. -/
structure RefinesBy (refine : Range → Option Range) (cond : BitVec 64 → Prop) : Prop where
  keeps : ∀ r v, r.Has v → cond v → ∃ r', refine r = some r' ∧ r'.Has v
  empty : ∀ r, refine r = none → ∀ v, r.Has v → ¬cond v

/-- A refinement that keeps the values gives up only where there are none. -/
theorem RefinesBy.of_keeps {refine : Range → Option Range} {cond : BitVec 64 → Prop}
    (h : ∀ r v, r.Has v → cond v → ∃ r', refine r = some r' ∧ r'.Has v) :
    RefinesBy refine cond where
  keeps := h
  empty r hnone v hv hcond := by
    obtain ⟨r', hsome, -⟩ := h r v hv hcond
    rw [hnone] at hsome
    cases hsome

theorem refineUltTrue_sound (bound : ℕ) (hbound : 0 < bound ∧ bound ≤ u64MaxVal) :
    RefinesBy (refineUltTrue · bound hbound) (fun v => v.toNat < bound) := by
  refine .of_keeps fun r v ⟨humin, humax, hsmin, hsmax⟩ hlt => ?_
  have hread := Word.toInt_cases v
  have hu : v.toNat ≤ if r.umax ≥ bound then bound - 1 else r.umax := by
    split <;> omega
  -- below the sign boundary the signed bounds move to bounds of the value
  have hlo {umax : ℕ} (h : v.toNat ≤ umax) :
      (if umax < 2 ^ 63 ∧ r.smin < 0 then 0 else r.smin) ≤ v.toInt := by
    split <;> omega
  have hhi {umax : ℕ} (h : v.toNat ≤ umax) :
      v.toInt ≤ if umax < 2 ^ 63 ∧ r.smax > umax then (umax : ℤ) else r.smax := by
    split <;> omega
  exact ⟨_, (dif_neg (by omega)).trans (dif_neg (Int.not_lt.mpr (Int.le_trans (hlo hu) (hhi hu)))),
    humin, hu, hlo hu, hhi hu⟩

theorem refineUltFalse_sound (bound : ℕ) (hbound : bound ≤ u64MaxVal) :
    RefinesBy (refineUltFalse · bound hbound) (fun v => bound ≤ v.toNat) := by
  refine .of_keeps fun r v ⟨humin, humax, hsmin, hsmax⟩ hge => ?_
  have hu : (if r.umin < bound then bound else r.umin) ≤ v.toNat := by
    split <;> omega
  exact ⟨_, dif_neg (by omega), hu, humax, hsmin, hsmax⟩

theorem refineSgtTrue_sound (sbound : ℤ) (hbound : s64Min ≤ sbound ∧ sbound < s64Max) :
    RefinesBy (refineSgtTrue · sbound hbound) (fun v => sbound < v.toInt) := by
  refine .of_keeps fun r v ⟨humin, humax, hsmin, hsmax⟩ hgt => ?_
  have hread := Word.toInt_cases v
  have hlo : (if r.smin ≤ sbound then sbound + 1 else r.smin) ≤ v.toInt := by
    split <;> omega
  -- the unsigned bound moves only where the value is not negative
  have hu {smin : ℤ} (h : smin ≤ v.toInt) :
      (if smin ≥ 0 ∧ r.umin < smin then smin.toNat else r.umin) ≤ v.toNat := by
    split <;> omega
  exact ⟨_, (dif_neg (Int.not_lt.mpr (Int.le_trans hlo hsmax))).trans
    (dif_neg (Nat.not_lt.mpr (Nat.le_trans (hu hlo) humax))), hu hlo, humax, hlo, hsmax⟩

theorem refineSgtFalse_sound (sbound : ℤ) (hbound : s64Min ≤ sbound ∧ sbound ≤ s64Max) :
    RefinesBy (refineSgtFalse · sbound hbound) (fun v => v.toInt ≤ sbound) := by
  refine .of_keeps fun r v ⟨humin, humax, hsmin, hsmax⟩ hle => ?_
  have hhi : v.toInt ≤ if r.smax > sbound then sbound else r.smax := by
    split <;> omega
  exact ⟨_, dif_neg (Int.not_lt.mpr (Int.le_trans hsmin hhi)), humin, humax, hsmin, hhi⟩

/-- A constant's range holds the constant. -/
theorem has_rangeConst (v : BitVec 64) (hv : v.toNat ≤ u64MaxVal) :
    (rangeConst v.toNat hv).Has v := by
  have hread := Word.toInt_cases v
  have hs : v.toInt = if v.toNat ≥ 2 ^ 63 then (v.toNat : ℤ) - 2 ^ 64 else (v.toNat : ℤ) := by
    split <;> omega
  exact ⟨Nat.le_refl _, Nat.le_refl _, Int.le_of_eq hs.symm, Int.le_of_eq hs⟩

theorem refineEqTrue_sound (k : ℕ) (hk : k ≤ u64MaxVal) :
    RefinesBy (refineEqTrue · k hk) (fun v => v.toNat = k) := by
  refine .of_keeps fun r v ⟨humin, humax, hsmin, hsmax⟩ heq => ?_
  obtain rfl := heq
  exact ⟨_, if_neg (by omega), has_rangeConst v hk⟩

/-- **Refinement at a branch is sound**, for each of the conditions. -/
theorem refine_sound :
    (∀ bound h, RefinesBy (refineUltTrue · bound h) (fun v => v.toNat < bound)) ∧
      (∀ bound h, RefinesBy (refineUltFalse · bound h) (fun v => bound ≤ v.toNat)) ∧
      (∀ sbound h, RefinesBy (refineSgtTrue · sbound h) (fun v => sbound < v.toInt)) ∧
      (∀ sbound h, RefinesBy (refineSgtFalse · sbound h) (fun v => v.toInt ≤ sbound)) ∧
      ∀ k h, RefinesBy (refineEqTrue · k h) (fun v => v.toNat = k) :=
  ⟨refineUltTrue_sound, refineUltFalse_sound, refineSgtTrue_sound, refineSgtFalse_sound,
    refineEqTrue_sound⟩

/-! ## Joins -/

/-- What a variable holds at run time: a number, or a pointer into some object. -/
inductive RuntimeVal where
  | word (x : BitVec 64)
  | ctx (offset : ℕ)
  | localVar (varName : String) (offset : ℕ)
  | mapValue (mid : MapId) (offset : ℕ)
  /-- A packet pointer, with the bytes that can be accessed from it. -/
  | packet (accessible : ℕ)
  | packetEnd
  | socket (rid : RefId)

/-- **The values a class describes.**  Null is the number zero, and nothing is said of a variable
that is not assigned. -/
def ValClass.Describes : ValClass → RuntimeVal → Prop
  | Uninit, _ => True
  | Scalar t r, .word x => t.Has x ∧ r.Has x
  | PtrToCtx o, .ctx o' => o' = o
  | PtrToLocal x o, .localVar x' o' => x' = x ∧ o' = o
  | PtrToMapValue m o, .mapValue m' o' => m' = m ∧ o' = o
  | PtrToMapValueOrNull _ _, .word x => x = 0
  | PtrToMapValueOrNull m _, .mapValue m' o' => m' = m ∧ o' = 0
  | PtrToPacket n, .packet n' => n ≤ n'
  | PtrToPacketEnd, .packetEnd => True
  | PtrToSocket rid, .socket rid' => rid' = rid
  | PtrToSocketOrNull _, .word x => x = 0
  | PtrToSocketOrNull rid, .socket rid' => rid' = rid
  | _, _ => False

/-- **The join of two classes covers both.** -/
def JoinCovers (a b : ValClass) : Prop :=
  ∀ c, joinValClass a b = some c → ∀ v, a.Describes v ∨ b.Describes v → c.Describes v

/-- **The join of two contexts covers both**: a variable it keeps is not assigned, or has a class
that covers its classes in both. -/
def JoinCtxCovers (ctx₁ ctx₂ : VarCtx) : Prop :=
  ∀ name c, (joinCtx ctx₁ ctx₂).lookup name = some c → c = Uninit ∨
    ∃ a b, ctx₁.lookup name = some a ∧ ctx₂.lookup name = some b ∧
      ∀ v, a.Describes v ∨ b.Describes v → c.Describes v

/-- The classes do not point into the same map value at different offsets. -/
def SameOffset (a b : ValClass) : Prop :=
  ∀ mid oa ob, a = PtrToMapValue mid oa → b = PtrToMapValue mid ob → oa = ob

/-- Every word matches a number of which nothing is known. -/
theorem has_tnumUnknown (x : BitVec 64) : tnumUnknown.Has x := by
  simp [Tnum.Has, tnumUnknown]

/-- A joined range holds the values of both. -/
theorem Range.Has.join {ra rb : Range} {x : BitVec 64} (h : ra.Has x ∨ rb.Has x) :
    (rangeJoin ra rb).Has x := by
  have hbounds : (ra.umin ≤ x.toNat ∧ x.toNat ≤ ra.umax ∧ ra.smin ≤ x.toInt ∧ x.toInt ≤ ra.smax) ∨
      (rb.umin ≤ x.toNat ∧ x.toNat ≤ rb.umax ∧ rb.smin ≤ x.toInt ∧ x.toInt ≤ rb.smax) :=
    h.imp (fun h => ⟨h.umin, h.umax, h.smin, h.smax⟩) fun h => ⟨h.umin, h.umax, h.smin, h.smax⟩
  refine ⟨?_, ?_, ?_, ?_⟩ <;> simp only [rangeJoin] <;> split <;> omega

/-- Two pointers into one map value join to the smaller offset. -/
theorem joinValClass_mapValue (mid oa ob : ℕ) :
    joinValClass (PtrToMapValue mid oa) (PtrToMapValue mid ob) =
      some (PtrToMapValue mid (if oa ≤ ob then oa else ob)) := if_pos rfl

/-- …which covers both only if it is the offset of both. -/
theorem joinCovers_mapValue {mid oa ob : ℕ} :
    JoinCovers (PtrToMapValue mid oa) (PtrToMapValue mid ob) ↔ oa = ob := by
  have hjoin := joinValClass_mapValue mid oa ob
  constructor
  · intro h
    have ha := (h _ hjoin (.mapValue mid oa) (Or.inl ⟨rfl, rfl⟩)).2
    have hb := (h _ hjoin (.mapValue mid ob) (Or.inr ⟨rfl, rfl⟩)).2
    exact ha.trans hb.symm
  · rintro rfl c hc v hv
    obtain rfl := Option.some.inj (hjoin.symm.trans hc)
    rw [if_pos (Nat.le_refl oa)]
    exact hv.elim id id

/-- **A join of classes covers both** exactly when it does not merge two offsets. -/
theorem joinCovers_iff (a b : ValClass) : JoinCovers a b ↔ SameOffset a b := by
  constructor
  · rintro h mid oa ob rfl rfl
    exact joinCovers_mapValue.mp h
  · intro hoff c hc v hv
    unfold joinValClass at hc
    split at hc
    · obtain rfl := Option.some.inj hc
      trivial
    · next ra _ rb =>
      obtain rfl := Option.some.inj hc
      cases v with
      | word x => exact ⟨has_tnumUnknown x, Range.Has.join (hv.imp And.right And.right)⟩
      | _ => exact (hv.elim id id).elim
    · split at hc
      · next heq =>
        obtain rfl := Option.some.inj hc
        subst heq
        exact hv.elim id id
      · cases hc
    · next mid oa mid' ob =>
      by_cases hmid : mid = mid'
      · subst hmid
        exact joinCovers_mapValue.mpr (hoff mid oa ob rfl rfl) c hc v hv
      · rw [if_neg hmid] at hc
        cases hc
    · next na nb =>
      obtain rfl := Option.some.inj hc
      cases v with
      | packet n =>
        have hn : na ≤ n ∨ nb ≤ n := hv
        show (if na ≤ nb then na else nb) ≤ n
        split <;> omega
      | _ => exact (hv.elim id id).elim
    · cases hc

/-- **A join of contexts covers both** exactly when it merges no two offsets of a variable. -/
theorem joinCtxCovers_iff (ctx₁ ctx₂ : VarCtx) : JoinCtxCovers ctx₁ ctx₂ ↔
    ∀ name a b, ctx₁.lookup name = some a → ctx₂.lookup name = some b → SameOffset a b := by
  constructor
  · intro h name a b ha hb mid oa ob hoa hob
    subst hoa hob
    have hlookup := lookup_joinCtx ctx₁ ctx₂ name
    have hjoin := joinValClass_mapValue mid oa ob
    rw [ha, hb, Option.bind_some, Option.map_some, hjoin, Option.getD_some] at hlookup
    rcases h name _ hlookup with huninit | ⟨a', b', ha', hb', hcovers⟩
    · cases huninit
    · obtain rfl := Option.some.inj (ha.symm.trans ha')
      obtain rfl := Option.some.inj (hb.symm.trans hb')
      have hpair : JoinCovers (PtrToMapValue mid oa) (PtrToMapValue mid ob) := by
        intro c hc
        obtain rfl := Option.some.inj (hjoin.symm.trans hc)
        exact hcovers
      exact joinCovers_mapValue.mp hpair
  · intro hoff name c hc
    rw [lookup_joinCtx, Option.bind_eq_some_iff] at hc
    obtain ⟨a, ha, hc⟩ := hc
    obtain ⟨b, hb, hc⟩ := Option.map_eq_some_iff.mp hc
    cases hjoin : joinValClass a b with
    | none =>
      rw [hjoin] at hc
      exact Or.inl hc.symm
    | some c' =>
      rw [hjoin] at hc
      obtain rfl : c' = c := hc
      exact Or.inr ⟨a, b, ha, hb, (joinCovers_iff a b).mpr (hoff name a b ha hb) _ hjoin⟩

/-- **Joins cover both sides** exactly where they merge no two offsets into one map value. -/
theorem join_covers_iff (a b : ValClass) (ctx₁ ctx₂ : VarCtx) :
    (JoinCovers a b ↔ SameOffset a b) ∧
      (JoinCtxCovers ctx₁ ctx₂ ↔
        ∀ name a b, ctx₁.lookup name = some a → ctx₂.lookup name = some b → SameOffset a b) :=
  ⟨joinCovers_iff a b, joinCtxCovers_iff ctx₁ ctx₂⟩

/-- **Two offsets into one map value** are merged into the smaller one. -/
theorem not_join_covers :
    ¬((∀ a b, JoinCovers a b) ∧ ∀ ctx₁ ctx₂, JoinCtxCovers ctx₁ ctx₂) := by
  rintro ⟨h, -⟩
  have hcovers := h (PtrToMapValue 1 0) (PtrToMapValue 1 8) _ rfl (.mapValue 1 8)
    (Or.inr ⟨rfl, rfl⟩)
  exact absurd hcovers.2 (by decide)

end BpfVerifier.FstarAst
