import BpfVerifier.Machinery.Buckets
import BpfVerifier.Machinery.TextSearch

/-!
# Fstar/Diagnose — `BPF.Tactic`, the postcondition printed conjunct by conjunct

`diagnose_conjuncts` looks for the postcondition in a goal and prints a line for each conjunct of
each disjunct.  A term is given as far as the tactics look into it; `show` is how F\* prints a
formula (`formula_to_string`).
-/

namespace BpfVerifier.Fstar

/-- A term of F\*, as far as the tactics look into it. -/
inductive GoalTerm where
  | abs (body : GoalTerm)
  | all (body : GoalTerm)
  | implies (lhs rhs : GoalTerm)
  | app (fn arg : GoalTerm)
  | and (lhs rhs : GoalTerm)
  | or (lhs rhs : GoalTerm)
  /-- Any other formula, with its text. -/
  | other (text : Text)
  deriving DecidableEq, Repr

/-! ## The postcondition of a goal -/

mutual

/-- `extract_post_term`. -/
def extractPostTerm (t : GoalTerm) : GoalTerm :=
  match t with
  | .abs body => extractPostTerm body
  | t => extractPost t
termination_by (sizeOf t, 1)

/-- `extract_post`. -/
def extractPost (f : GoalTerm) : GoalTerm :=
  match f with
  | .all body => extractPostTerm body
  | .implies _ rhs => extractPost rhs
  | .app fn _ => extractPostTerm fn
  | f => f
termination_by (sizeOf f, 0)

end

/-! ## Its conjuncts -/

/-- `flatten_string`: newlines are replaced with spaces. -/
def flattenString (s : Text) : Text := [' '].intercalate (s.splitOn '\n')

section

variable (print : GoalTerm → Text)

/-- `collect_conjuncts`. -/
def collectConjuncts : GoalTerm → List Text
  | .and l r => collectConjuncts l ++ collectConjuncts r
  | f => [flattenString (print f)]

/-- A line that `print` writes for a conjunct. -/
def conjunctText (idx : ℕ) (c : Text) : Text :=
  "TAC>> CONJUNCT|".toList ++ (toString idx).toList ++ '|' :: c

/-- `emit_disjuncts`: what is printed, and the index of the next disjunct. -/
def emitDisjuncts : GoalTerm → ℕ → List Text × ℕ
  | .or l r, idx =>
    let (left, idx') := emitDisjuncts l idx
    let (right, idx'') := emitDisjuncts r idx'
    (left ++ right, idx'')
  | f, idx => ((collectConjuncts print f).map (conjunctText idx), idx + 1)

/-- **`diagnose_conjuncts`**, what it prints for a goal. -/
def diagnoseConjuncts (goal : GoalTerm) : List Text := (emitDisjuncts print (extractPost goal) 0).1

/-! ## Disjuncts -/

/-- The disjuncts of a postcondition, each as its conjuncts. -/
def disjuncts : GoalTerm → List (List Text)
  | .or l r => disjuncts l ++ disjuncts r
  | f => [collectConjuncts print f]

end

theorem emitDisjuncts_eq (print : GoalTerm → Text) (f : GoalTerm) (idx : ℕ) :
    emitDisjuncts print f idx =
      ((Buckets.entries idx (disjuncts print f)).map fun e => conjunctText e.1 e.2,
        idx + (disjuncts print f).length) := by
  induction f generalizing idx with
  | or l r ihl ihr =>
    simp only [emitDisjuncts, ihl, ihr, disjuncts, Buckets.entries_append, List.map_append,
      List.length_append, Nat.add_assoc]
  | _ =>
    simp [emitDisjuncts, disjuncts, Buckets.entries, Function.comp_def]

/-- **What is printed is the conjuncts of the disjuncts, in their order.** -/
theorem diagnoseConjuncts_eq (print : GoalTerm → Text) (goal : GoalTerm) :
    diagnoseConjuncts print goal =
      (Buckets.entries 0 (disjuncts print (extractPost goal))).map fun e =>
        conjunctText e.1 e.2 := by
  rw [diagnoseConjuncts, emitDisjuncts_eq]

/-- Flattening puts a space for each newline. -/
theorem flattenString_eq (s : Text) :
    flattenString s = s.map fun c => if c = '\n' then ' ' else c := by
  induction s with
  | nil => rfl
  | cons c s ih =>
    obtain ⟨line, lines, hlines⟩ := List.exists_cons_of_ne_nil (List.splitOn_ne_nil '\n' s)
    rw [List.map_cons, ← ih, flattenString, flattenString, List.splitOn_cons_eq_if_modifyHead,
      hlines]
    by_cases hc : c = '\n'
    · simp [hc, List.intercalate_cons_cons]
    · rw [if_neg (by simpa using hc), if_neg hc]
      cases lines <;> simp [List.intercalate_cons_cons]

/-- A flattened text stands on one line. -/
theorem newline_mem_flattenString (s : Text) : '\n' ∉ flattenString s := by
  rw [flattenString_eq, List.mem_map]
  rintro ⟨c, -, hc⟩
  split at hc
  · exact absurd hc (by decide)
  · next hne => exact hne hc

end BpfVerifier.Fstar
