import BpfVerifier.FstarAst.Types

/-!
# FstarAst/ValClass — `BPF.ValClass`, what a variable's value can be

Classes of runtime values, their null-check promotions and their join at a merge of branches, with
the parts of `BPF.Tnum` and `BPF.Range` they use.
-/

namespace BpfVerifier.FstarAst

/-! ## Tristate numbers and ranges -/

/-- `tnum`: unknown bits and the values of the known ones. -/
structure Tnum where
  mask : BitVec 64
  value : BitVec 64
  wf : mask &&& value = 0

/-- `tnum_const`. -/
def tnumConst (v : BitVec 64) : Tnum := ⟨0, v, by simp⟩

/-- `tnum_unknown`. -/
def tnumUnknown : Tnum := ⟨BitVec.allOnes 64, 0, by simp⟩

def s64Min : ℤ := -2 ^ 63
def s64Max : ℤ := 2 ^ 63 - 1
def u64MaxVal : ℕ := 2 ^ 64 - 1

/-- `range`: unsigned and signed bounds, in order and within 64 bits. -/
structure Range where
  umin : ℕ
  umax : ℕ
  smin : ℤ
  smax : ℤ
  unsigned : umin ≤ umax ∧ umax ≤ u64MaxVal
  signed : smin ≤ smax ∧ s64Min ≤ smin ∧ smax ≤ s64Max

/-- `range_const`. -/
def rangeConst (v : ℕ) (h : v ≤ u64MaxVal) : Range :=
  let sv : ℤ := if v ≥ 2 ^ 63 then (v : ℤ) - 2 ^ 64 else v
  ⟨v, v, sv, sv, ⟨le_rfl, h⟩, by
    have hv : v ≤ 2 ^ 64 - 1 := h
    unfold s64Min s64Max
    simp only [sv]
    split <;> omega⟩

/-- `range_unknown`. -/
def rangeUnknown : Range :=
  ⟨0, u64MaxVal, s64Min, s64Max, ⟨Nat.zero_le _, le_rfl⟩, by decide⟩

/-- `range_join`: the smallest range containing both. -/
def rangeJoin (a b : Range) : Range where
  umin := if a.umin ≤ b.umin then a.umin else b.umin
  umax := if a.umax ≥ b.umax then a.umax else b.umax
  smin := if a.smin ≤ b.smin then a.smin else b.smin
  smax := if a.smax ≥ b.smax then a.smax else b.smax
  unsigned := by
    have ha := a.unsigned
    have hb := b.unsigned
    split <;> split <;> omega
  signed := by
    have ha := a.signed
    have hb := b.signed
    split <;> split <;> omega

/-! ## Classes -/

abbrev MapId := ℕ
abbrev RefId := ℕ

/-- `val_class`. -/
inductive ValClass where
  /-- Declared and not assigned. -/
  | Uninit
  | Scalar (t : Tnum) (r : Range)
  | PtrToCtx (offset : ℕ)
  | PtrToLocal (varName : String) (offset : ℕ)
  | PtrToMapValue (mid : MapId) (offset : ℕ)
  /-- A map lookup result before its null check. -/
  | PtrToMapValueOrNull (mid : MapId) (rid : RefId)
  | PtrToPacket (accessible : ℕ)
  | PtrToPacketEnd
  /-- A socket, which must be released. -/
  | PtrToSocket (rid : RefId)
  | PtrToSocketOrNull (rid : RefId)

open CType ValClass

/-- `val_class_compatible`. -/
def valClassCompatible : ValClass → CType → Bool
  | Uninit, _ => false
  | Scalar _ _, CInt _ | Scalar _ _, CUInt _ | Scalar _ _, CBool => true
  | PtrToCtx _, CPtr _ => true
  | PtrToLocal _ _, CPtr _ => true
  | PtrToMapValue _ _, CPtr _ => true
  | PtrToMapValueOrNull _ _, CPtrOrNull _ => true
  | PtrToPacket _, CPtr _ => true
  | PtrToPacketEnd, CPtr _ => true
  | PtrToSocket _, CPtr _ => true
  | PtrToSocketOrNull _, CPtrOrNull _ => true
  | _, _ => false

/-- `is_readable`. -/
def ValClass.isReadable : ValClass → Bool
  | Uninit => false
  | _ => true

/-- `needs_null_check`. -/
def needsNullCheck : ValClass → Bool
  | PtrToMapValueOrNull _ _ | PtrToSocketOrNull _ => true
  | _ => false

/-- `is_refcounted`. -/
def isRefcounted : ValClass → Bool
  | PtrToSocket _ | PtrToSocketOrNull _ => true
  | _ => false

/-- `get_ref_id`. -/
def getRefId (vc : ValClass) (h : isRefcounted vc = true) : RefId :=
  match vc with
  | PtrToSocket rid => rid
  | PtrToSocketOrNull rid => rid
  | Uninit | Scalar _ _ | PtrToCtx _ | PtrToLocal _ _ | PtrToMapValue _ _
  | PtrToMapValueOrNull _ _ | PtrToPacket _ | PtrToPacketEnd => absurd h Bool.false_ne_true

/-- `allows_arithmetic`. -/
def allowsArithmetic : ValClass → Bool
  | Scalar _ _ => true
  | PtrToCtx _ | PtrToLocal _ _ | PtrToMapValue _ _ => true
  | PtrToPacket _ => true
  | _ => false

/-! ## Null checks -/

/-- `promote_after_null_check`. -/
def promoteAfterNullCheck (vc : ValClass) (h : needsNullCheck vc = true) : ValClass :=
  match vc with
  | PtrToMapValueOrNull mid _ => PtrToMapValue mid 0
  | PtrToSocketOrNull rid => PtrToSocket rid
  | Uninit | Scalar _ _ | PtrToCtx _ | PtrToLocal _ _ | PtrToMapValue _ _ | PtrToPacket _
  | PtrToPacketEnd | PtrToSocket _ => absurd h Bool.false_ne_true

/-- `demote_after_null_check`: null is the number zero. -/
def demoteAfterNullCheck (vc : ValClass) (_ : needsNullCheck vc = true) : ValClass :=
  Scalar (tnumConst 0) (rangeConst 0 (Nat.zero_le _))

/-! ## Scalars -/

/-- `scalar_const`. -/
def scalarConst (v : ℕ) (h : v ≤ u64MaxVal) : ValClass :=
  Scalar (tnumConst (BitVec.ofNat 64 v)) (rangeConst v h)

/-- `scalar_unknown`. -/
def scalarUnknown : ValClass := Scalar tnumUnknown rangeUnknown

theorem isReadable_scalarUnknown : scalarUnknown.isReadable = true := rfl

/-! ## Join -/

/-- `join_val_class`; `none` for incompatible classes. -/
def joinValClass : ValClass → ValClass → Option ValClass
  | Uninit, Uninit => some Uninit
  | Scalar _ ra, Scalar _ rb => some (Scalar tnumUnknown (rangeJoin ra rb))
  | PtrToCtx oa, PtrToCtx ob => if oa = ob then some (PtrToCtx oa) else none
  | PtrToMapValue ma oa, PtrToMapValue mb ob =>
    if ma = mb then some (PtrToMapValue ma (if oa ≤ ob then oa else ob)) else none
  | PtrToPacket ra, PtrToPacket rb => some (PtrToPacket (if ra ≤ rb then ra else rb))
  -- sockets are among the pairs left
  | _, _ => none

/-- The classes a join can give. -/
def isMerged : ValClass → Bool
  | Uninit | Scalar _ _ | PtrToCtx _ | PtrToMapValue _ _ | PtrToPacket _ => true
  | _ => false

theorem isMerged_of_join {a b c : ValClass} (h : joinValClass a b = some c) :
    isMerged c = true := by
  unfold joinValClass at h
  split at h
  · obtain rfl := Option.some.inj h
    rfl
  · obtain rfl := Option.some.inj h
    rfl
  · split at h
    · obtain rfl := Option.some.inj h
      rfl
    · cases h
  · split at h
    · obtain rfl := Option.some.inj h
      rfl
    · cases h
  · obtain rfl := Option.some.inj h
    rfl
  · cases h

theorem not_isRefcounted_of_isMerged {vc : ValClass} (h : isMerged vc = true) :
    isRefcounted vc = false := by
  cases vc <;> first | rfl | cases h

theorem not_isMerged_of_needsNullCheck {vc : ValClass} (h : needsNullCheck vc = true) :
    isMerged vc = false := by
  cases vc <;> first | rfl | cases h

end BpfVerifier.FstarAst
