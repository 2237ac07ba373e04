import Mathlib.Logic.Relation
import Mathlib.Tactic.Common

/-!
# Machinery/Explore — a worklist that drops what it has covered

A run of an `Explorer` takes pending items one at a time.  An item past the end, or covered by an
earlier visit, is dropped; any other is visited and leaves its successors pending.  Once nothing is
pending the visits are closed under successors (`Explores.closed`), and a closed set of visits
describes every state a transition system reaches when its single steps are described
(`Closed.reachable`).
-/

/-- What an exploration visits: items `ι` wait, visits `ν` are what an item becomes. -/
structure Explorer (ι ν : Type*) where
  /-- Visiting `v` accounts for the item `i`. -/
  covers : ι → ν → Prop
  succ : ν → List ι
  /-- The item is past the end, and needs no visit. -/
  ends : ι → Prop

namespace Explorer

variable {ι ν : Type*} (E : Explorer ι ν)

/-- Nothing is left to do about an item. -/
def Settled (vs : List ν) (i : ι) : Prop := E.ends i ∨ ∃ v ∈ vs, E.covers i v

/-- **The runs of the worklist**: the visits made so far and the items still pending. -/
inductive Explores (start : ι) : List ν → List ι → Prop
  | start : Explores start [] [start]
  | drop {vs : List ν} {i : ι} {rest : List ι} : Explores start vs (i :: rest) →
      E.Settled vs i → Explores start vs rest
  | visit {vs : List ν} {i : ι} {rest : List ι} {v : ν} : Explores start vs (i :: rest) →
      E.covers i v → Explores start (v :: vs) (E.succ v ++ rest)

/-- A set of visits with nothing left to do. -/
structure Closed (start : ι) (vs : List ν) : Prop where
  start : E.Settled vs start
  succ : ∀ v ∈ vs, ∀ i ∈ E.succ v, E.Settled vs i

variable {E} {start : ι} {vs : List ν}

theorem Settled.cons {i : ι} (v : ν) (h : E.Settled vs i) : E.Settled (v :: vs) i :=
  h.imp_right fun ⟨v', hv', hc⟩ => ⟨v', List.mem_cons_of_mem v hv', hc⟩

/-- An item is settled, or is still waiting. -/
def Kept (E : Explorer ι ν) (vs : List ν) (pending : List ι) (i : ι) : Prop :=
  E.Settled vs i ∨ i ∈ pending

/-- Dropping a settled item loses no other. -/
theorem Kept.drop {i j : ι} {rest : List ι} (hj : E.Settled vs j)
    (h : Kept E vs (j :: rest) i) : Kept E vs rest i := by
  rcases h with hs | hmem
  · exact Or.inl hs
  · rcases List.mem_cons.mp hmem with rfl | hrest
    · exact Or.inl hj
    · exact Or.inr hrest

/-- Visiting a waiting item settles it and loses no other. -/
theorem Kept.visit {i j : ι} {rest : List ι} {v : ν} (hj : E.covers j v)
    (h : Kept E vs (j :: rest) i) : Kept E (v :: vs) (E.succ v ++ rest) i := by
  rcases h with hs | hmem
  · exact Or.inl (hs.cons v)
  · rcases List.mem_cons.mp hmem with rfl | hrest
    · exact Or.inl (Or.inr ⟨v, List.mem_cons_self, hj⟩)
    · exact Or.inr (List.mem_append_right _ hrest)

/-- **No item is lost**: the start and every successor of a visit is settled or waiting. -/
theorem Explores.kept {pending : List ι} (h : E.Explores start vs pending) :
    Kept E vs pending start ∧ ∀ v ∈ vs, ∀ i ∈ E.succ v, Kept E vs pending i := by
  induction h with
  | start => exact ⟨Or.inr List.mem_cons_self, fun v hv => absurd hv (by simp)⟩
  | drop _ hs ih => exact ⟨ih.1.drop hs, fun v hv i hi => (ih.2 v hv i hi).drop hs⟩
  | visit _ hc ih =>
    refine ⟨ih.1.visit hc, fun v hv i hi => ?_⟩
    rcases List.mem_cons.mp hv with rfl | hv
    · exact Or.inr (List.mem_append_left _ hi)
    · exact (ih.2 v hv i hi).visit hc

/-- **An exhausted worklist has closed its visits.** -/
theorem Explores.closed (h : E.Explores start vs []) : E.Closed start vs := by
  obtain ⟨hstart, hsucc⟩ := h.kept
  exact ⟨hstart.resolve_right (by simp),
    fun v hv i hi => (hsucc v hv i hi).resolve_right (by simp)⟩

/-! ## What a closed set of visits describes -/

/-- A state is described by a visit, or by an item past the end. -/
def Described {σ : Type*} (E : Explorer ι ν) (vs : List ν) (holdsI : ι → σ → Prop)
    (holdsV : ν → σ → Prop) (s : σ) : Prop :=
  (∃ v ∈ vs, holdsV v s) ∨ ∃ i, E.ends i ∧ holdsI i s

section Simulation

variable {σ : Type*} {step : σ → σ → Prop} {holdsI : ι → σ → Prop} {holdsV : ν → σ → Prop}

/-- A settled item passes its description on to the visits. -/
theorem Settled.described (hcover : ∀ i, ∀ v ∈ vs, ∀ s, E.covers i v → holdsI i s → holdsV v s)
    {i : ι} {s : σ} (hi : E.Settled vs i) (hs : holdsI i s) :
    Described E vs holdsI holdsV s := by
  rcases hi with hend | ⟨v, hv, hc⟩
  · exact Or.inr ⟨i, hend, hs⟩
  · exact Or.inl ⟨v, hv, hcover i v hv s hc hs⟩

/-- **A closed set of visits describes every reachable state**, when what a visit describes steps
only to what one of its successors describes. -/
theorem Closed.reachable (h : E.Closed start vs)
    (hcover : ∀ i, ∀ v ∈ vs, ∀ s, E.covers i v → holdsI i s → holdsV v s)
    (hstep : ∀ v ∈ vs, ∀ s s', holdsV v s → step s s' → ∃ i ∈ E.succ v, holdsI i s')
    (hends : ∀ i s s', E.ends i → holdsI i s → ¬step s s')
    {s₀ s : σ} (hs₀ : holdsI start s₀) (hr : Relation.ReflTransGen step s₀ s) :
    Described E vs holdsI holdsV s := by
  induction hr with
  | refl => exact h.start.described hcover hs₀
  | tail _ hs ih =>
    rcases ih with ⟨v, hv, hd⟩ | ⟨i, hend, hd⟩
    · obtain ⟨i, hi, hd'⟩ := hstep v hv _ _ hd hs
      exact (h.succ v hv i hi).described hcover hd'
    · exact absurd hs (hends i _ _ hend hd)

end Simulation

end Explorer
