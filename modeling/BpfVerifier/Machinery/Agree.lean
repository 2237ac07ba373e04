import Mathlib.Tactic.Common

/-!
# Machinery/Agree — lists that agree but for flagged entries

`AgreeBut eqv flags l l'` relates two lists entry by entry: flagged entries correspond in `eqv`, the
others are equal, and past the flags the lists are the same.  Looking an entry up by what `eqv`
keeps gives corresponding entries, equal unless the one found is flagged (`AgreeBut.find?`).
-/

/-- Two lists that agree but for the flagged among their first entries. -/
inductive AgreeBut {α : Type*} (eqv : α → α → Prop) : List Bool → List α → List α → Prop
  | same (l : List α) : AgreeBut eqv [] l l
  | cons {b : Bool} {flags : List Bool} {a a' : α} {l l' : List α} : eqv a a' →
      (b = false → a = a') → AgreeBut eqv flags l l' →
      AgreeBut eqv (b :: flags) (a :: l) (a' :: l')

namespace AgreeBut

variable {α : Type*} {eqv : α → α → Prop} {flags : List Bool} {l l' : List α}

/-- The flag of the first entry a test finds. -/
def flagAt (p : α → Bool) : List Bool → List α → Bool
  | b :: flags, a :: l => if p a then b else flagAt p flags l
  | _, _ => false

/-- An entry is put in front of both lists. -/
theorem push (h : AgreeBut eqv flags l l') {a : α} (ha : eqv a a) (b : Bool) :
    AgreeBut eqv (b :: flags) (a :: l) (a :: l') :=
  .cons ha (fun _ => rfl) h

/-- **A lookup by what `eqv` keeps** finds corresponding entries in both lists, or none in both. -/
theorem find? (hrefl : ∀ a, eqv a a) {p : α → Bool} (hp : ∀ {a a'}, eqv a a' → p a = p a')
    (h : AgreeBut eqv flags l l') : (l.find? p = none ∧ l'.find? p = none) ∨
      ∃ a a', l.find? p = some a ∧ l'.find? p = some a' ∧ eqv a a' ∧
        (flagAt p flags l = false → a = a') := by
  induction h with
  | same l =>
    cases hfind : l.find? p with
    | none => exact Or.inl ⟨rfl, rfl⟩
    | some a => exact Or.inr ⟨a, a, rfl, rfl, hrefl a, fun _ => rfl⟩
  | @cons b flags a a' l l' heqv heq _ ih =>
    rw [List.find?_cons, List.find?_cons, flagAt, ← hp heqv]
    cases p a with
    | true => exact Or.inr ⟨a, a', rfl, rfl, heqv, by simpa using heq⟩
    | false => simpa using ih

end AgreeBut
