import Mathlib.Order.WellFounded
import Mathlib.Tactic.Common

/-!
# Machinery/Descent — lexicographic descent

States ranked by a list of numbers, the first that changes deciding.  A run whose every step goes
down in this order comes to an end (`exists_not_below`).
-/

namespace Descent

variable {σ : Type*}

/-- The first rank on which two states differ is lower on the first state. -/
def Below : List (σ → ℕ) → σ → σ → Prop
  | [], _, _ => False
  | f :: fs, s', s => f s' < f s ∨ f s' = f s ∧ Below fs s' s

/-- **The lexicographic order of finitely many ranks is well founded.** -/
theorem wellFounded_below : ∀ fs : List (σ → ℕ), WellFounded (Below fs)
  | [] => ⟨fun s => .intro s fun _ h => h.elim⟩
  | f :: fs => by
      have hlex : WellFounded (InvImage (Prod.Lex (· < ·) (Below fs)) fun s => (f s, s)) :=
        InvImage.wf _ (Nat.lt_wfRel.wf.prod_lex (wellFounded_below fs))
      refine Subrelation.wf (fun {s' s} h => ?_) hlex
      rcases h with hlt | ⟨heq, hbelow⟩
      · exact Prod.Lex.left _ _ hlt
      · exact Prod.lex_def.mpr (Or.inr ⟨heq, hbelow⟩)

/-- **No run goes down for ever.** -/
theorem exists_not_below (fs : List (σ → ℕ)) (run : ℕ → σ) :
    ∃ n, ¬Below fs (run (n + 1)) (run n) :=
  have : IsWellFounded σ (Below fs) := ⟨wellFounded_below fs⟩
  WellFounded.not_rel_apply_succ run

end Descent
