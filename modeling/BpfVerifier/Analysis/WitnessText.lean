import BpfVerifier.Analysis.StackWitness
import BpfVerifier.Machinery.Reader

/-!
# Analysis/WitnessText — the witness as it is written

`to_fstar` writes states and target maps in the notation of F\*.  The readers here take the lists
back off these texts; what they read off is what `RegState.toFstar` and `TargetMap.toFstar` say is
written (`reads_stateText`, `reads_targetsText`).
-/

namespace BpfVerifier.StackBounds

open Reader (Reads Diverge)

/-! ## Texts -/

/-- An offset, which stands in parentheses below 0. -/
def offsetText (off : BitVec 64) : Text :=
  if off.toInt < 0 then "(".toList ++ (toString off.toInt).toList ++ ")".toList
  else (toString off.toInt).toList

/-- `AbsReg::to_fstar`, to the letter. -/
def AbsReg.text : AbsReg → Text
  | .framePtr off => "AbsFramePtr ".toList ++ offsetText off
  | .ctxPtr off => "AbsCtxPtr ".toList ++ offsetText off
  | .ringBufPtr id => "AbsRingBufPtr ".toList ++ (toString id.toNat).toList
  | .other => "AbsOther".toList

/-- `({}, {})`. -/
def pairText (a b : Text) : Text := "(".toList ++ a ++ ", ".toList ++ b ++ ")".toList

/-- `[]`, or the entries in brackets. -/
def listText (entries : List Text) : Text :=
  if entries.isEmpty then "[]".toList
  else "[".toList ++ "; ".toList.intercalate entries ++ "]".toList

/-- `RegState::to_fstar`, to the letter. -/
def RegState.text (state : RegState) : Text :=
  listText ((Reg.all.filter fun r => state r ≠ defaultReg r).map fun r =>
    pairText (toString r.index).toList (state r).text)

/-- `TargetMap::to_fstar`, to the letter. -/
def TargetMap.text (targets : TargetMap) : Text :=
  let pairs := targets.entries.map fun e => (e.1, e.2.text)
  listText ((pairs.mergeSort fun a b => a.1.sle b.1).map fun e =>
    pairText (toString e.1.toInt).toList e.2)

/-! ## Readers -/

def readReg : Reader Fstar.AbsReg :=
  (Reader.after "AbsFramePtr ".toList (Reader.argument.map .AbsFramePtr)).orElse <|
  (Reader.after "AbsCtxPtr ".toList (Reader.argument.map .AbsCtxPtr)).orElse <|
  (Reader.after "AbsRingBufPtr ".toList (Reader.nat.map .AbsRingBufPtr)).orElse <|
  Reader.after "AbsOther".toList (Reader.pure .AbsOther)

/-- The entries of a state. -/
def readState : Reader (List (ℕ × Fstar.AbsReg)) := Reader.list (Reader.pair Reader.nat readReg)

/-- The entries of a target map. -/
def readTargets : Reader (List (Int × List (ℕ × Fstar.AbsReg))) :=
  Reader.list (Reader.pair Reader.int readState)

/-! ## What is read -/

theorem listText_eq (entries : List Text) :
    listText entries = "[".toList ++ "; ".toList.intercalate entries ++ "]".toList := by
  cases entries with
  | nil => rfl
  | cons _ _ => rfl

theorem stripPrefix_pairText (a b rest : Text) :
    Text.stripPrefix "]".toList (pairText a b ++ rest) = none := by
  have hopen : Diverge "]".toList "(".toList := by decide
  simp only [pairText, List.append_assoc]
  exact Reader.stripPrefix_of_diverge hopen _

/-- One mark is not another. -/
theorem after_of_diverge {α : Type} {p q : Text} (h : Diverge p q) (read : Reader α)
    (t rest : Text) : Reader.after p read (q ++ t ++ rest) = none := by
  rw [Reader.after, List.append_assoc, Reader.stripPrefix_of_diverge h, Option.bind_none]

theorem reads_regText (v : AbsReg) : Reads readReg v.text v.toFstar := by
  unfold readReg
  cases v with
  | framePtr off => exact .orElse_left (((Reads.argument off.toInt).map _).after _)
  | ctxPtr off =>
    refine .orElse_right (after_of_diverge (by decide) _ _) ?_
    exact .orElse_left (((Reads.argument off.toInt).map _).after _)
  | ringBufPtr id =>
    refine .orElse_right (after_of_diverge (by decide) _ _) ?_
    refine .orElse_right (after_of_diverge (by decide) _ _) ?_
    exact .orElse_left (((Reads.nat id.toNat).map _).after _)
  | other =>
    have hother := (Reads.pure Fstar.AbsReg.AbsOther).after "AbsOther".toList
    rw [List.append_nil] at hother
    refine .orElse_right (fun rest => ?_) (.orElse_right (fun rest => ?_)
      (.orElse_right (fun rest => ?_) hother))
    · exact after_of_diverge (q := "AbsOther".toList) (by decide) _ [] rest
    · exact after_of_diverge (q := "AbsOther".toList) (by decide) _ [] rest
    · exact after_of_diverge (q := "AbsOther".toList) (by decide) _ [] rest

/-- **A state is read as its entries.** -/
theorem reads_stateText (state : RegState) : Reads readState state.text state.toFstar := by
  rw [RegState.text, listText_eq]
  refine Reads.list (fun r _ => ?_) fun r _ => stripPrefix_pairText _ _
  exact (Reads.nat r.index).pair (reads_regText (state r))

example : (RegState.init.set .r1 (.framePtr (-8))).text = "[(1, AbsFramePtr (-8))]".toList := by
  decide +kernel

/-- The states may be written after they are sorted. -/
theorem TargetMap.text_eq (targets : TargetMap) :
    targets.text = listText ((targets.sorted BitVec.sle).entries.map fun e =>
      pairText (toString e.1.toInt).toList e.2.text) := by
  have hsort : (targets.sorted BitVec.sle).entries.map (fun e => (e.1, e.2.text)) =
      (targets.entries.map fun e => (e.1, e.2.text)).mergeSort fun a b => a.1.sle b.1 :=
    List.map_mergeSort fun _ _ _ _ => rfl
  rw [TargetMap.text, ← hsort, List.map_map]
  rfl

/-- **A target map is read as its entries**, in the order of their index. -/
theorem reads_targetsText (targets : TargetMap) :
    Reads readTargets targets.text targets.toFstar := by
  rw [TargetMap.text_eq, TargetMap.toFstar_eq, listText_eq]
  refine Reads.list (fun e _ => ?_) fun e _ => stripPrefix_pairText _ _
  exact (Reads.int e.1.toInt).pair (reads_stateText e.2)

end BpfVerifier.StackBounds
