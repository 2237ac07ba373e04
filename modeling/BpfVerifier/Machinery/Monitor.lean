import Mathlib.Tactic.Common

/-!
# Machinery/Monitor — a state kept along a list of events

`run` is the state after the events and `Along` says that each event meets a condition in the state
before it.  Both split at an append (`run_append`, `along_append`), which is what an induction over
the derivation of the events needs.
-/

namespace Monitor

variable {σ ε : Type*} (step : σ → ε → σ)

/-- The state after some events. -/
def run (s : σ) (events : List ε) : σ := events.foldl step s

/-- Every event meets a condition in the state before it. -/
def Along (P : σ → ε → Prop) : σ → List ε → Prop
  | _, [] => True
  | s, e :: events => P s e ∧ Along P (step s e) events

variable {step} {P Q : σ → ε → Prop} {s : σ}

theorem run_append (events later : List ε) :
    run step s (events ++ later) = run step (run step s events) later := List.foldl_append

theorem along_append {events later : List ε} :
    Along step P s (events ++ later) ↔
      Along step P s events ∧ Along step P (run step s events) later := by
  induction events generalizing s with
  | nil => exact (and_iff_right trivial).symm
  | cons e events ih =>
    simp only [List.cons_append, Along, ih, and_assoc]
    rfl

/-- Events that change nothing. -/
theorem run_of_fixed {events : List ε} (h : ∀ e ∈ events, step s e = s) :
    run step s events = s := by
  induction events with
  | nil => rfl
  | cons e events ih =>
    obtain ⟨he, hrest⟩ := List.forall_mem_cons.mp h
    exact (congrArg (fun s' => run step s' events) he).trans (ih hrest)

theorem along_of_fixed {events : List ε} (h : ∀ e ∈ events, step s e = s) :
    Along step P s events ↔ ∀ e ∈ events, P s e := by
  induction events with
  | nil => simp [Along]
  | cons e events ih =>
    obtain ⟨he, hrest⟩ := List.forall_mem_cons.mp h
    rw [Along, he, ih hrest, List.forall_mem_cons]

end Monitor
