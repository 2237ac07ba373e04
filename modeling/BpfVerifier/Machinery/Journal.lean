import Mathlib.Logic.Relation
import Mathlib.Tactic.Common

/-!
# Machinery/Journal — a table kept along a history of events

An event may bind keys of a table, drop keys, and change what stays bound; and it touches keys,
whatever it does to their entries.  An entry is backed when some event bound it and none since has
touched its key without binding it anew.  Every entry is backed all along a run exactly when every
event settles — binds or drops — the entries it touches (`along_backed_iff`).
-/

/-- A table, and the events that change it. -/
structure Journal (σ ε κ ν : Type*) where
  get : σ → κ → Option ν
  step : σ → ε → σ → Prop
  binds : ε → κ → ν → Prop
  drops : ε → κ → Prop
  touches : ε → κ → Prop
  /-- What an event may make of a value that stays bound. -/
  carries : ν → ν → Prop

namespace Journal

variable {σ ε κ ν : Type*} (J : Journal σ ε κ ν)

/-- The event decides what the key is bound to. -/
def Settles (e : ε) (k : κ) : Prop := J.drops e k ∨ ∃ v, J.binds e k v

/-- **A journal is lawful**: a settled key holds what the event binds, any other keeps its entry up
to `carries`. -/
structure Lawful : Prop where
  settled : ∀ {s s' e k v}, J.step s e s' → J.Settles e k → J.get s' k = some v → J.binds e k v
  kept : ∀ {s s' e k v}, J.step s e s' → ¬J.Settles e k → J.get s k = some v →
    ∃ v', J.get s' k = some v'
  carried : ∀ {s s' e k v'}, J.step s e s' → ¬J.Settles e k → J.get s' k = some v' →
    ∃ v, J.get s k = some v ∧ J.carries v v'

/-- The runs from a table, with each event and the table it met, the latest first. -/
inductive Run (s₀ : σ) : List (σ × ε) → σ → Prop
  | start : Run s₀ [] s₀
  | step {h : List (σ × ε)} {s s' : σ} {e : ε} : Run s₀ h s → J.step s e s' →
      Run s₀ ((s, e) :: h) s'

/-- A property of a history and the table it leads to, at the end of a run and all along it. -/
def Along (P : List (σ × ε) → σ → Prop) : List (σ × ε) → σ → Prop
  | [], s => P [] s
  | (t, e) :: h, s => P ((t, e) :: h) s ∧ Along P h t

theorem Along.last {P : List (σ × ε) → σ → Prop} {h : List (σ × ε)} {s : σ} (hP : Along P h s) :
    P h s := by
  cases h with
  | nil => exact hP
  | cons x h => exact hP.1

/-- **An entry is backed by a history**: an event bound its key to a value that it still is, up to
`carries`, and every event since that touched the key bound it as well. -/
def Backed (h : List (σ × ε)) (k : κ) (v : ν) : Prop :=
  ∃ later s e earlier v₀, h = later ++ (s, e) :: earlier ∧ J.binds e k v₀ ∧
    Relation.ReflTransGen J.carries v₀ v ∧ ∀ x ∈ later, J.touches x.2 k → ∃ w, J.binds x.2 k w

/-- The event settles every entry it touches. -/
def Settling (s : σ) (e : ε) : Prop := ∀ k v, J.get s k = some v → J.touches e k → J.Settles e k

variable {J} {s₀ s s' : σ} {e : ε} {h : List (σ × ε)}

theorem backed_of_binds {k : κ} {v : ν} (hb : J.binds e k v) : J.Backed ((s, e) :: h) k v :=
  ⟨[], s, e, h, v, rfl, hb, .refl, fun _ hx => absurd hx List.not_mem_nil⟩

/-- An untouched key stays backed. -/
theorem Backed.cons {k : κ} {v v' : ν} (hb : J.Backed h k v) (hc : J.carries v v')
    (ht : ¬J.touches e k) : J.Backed ((s, e) :: h) k v' := by
  obtain ⟨later, t, e₀, earlier, v₀, rfl, hbinds, hcarries, hlater⟩ := hb
  refine ⟨(s, e) :: later, t, e₀, earlier, v₀, rfl, hbinds, hcarries.tail hc, fun x hx => ?_⟩
  rcases List.mem_cons.mp hx with rfl | hx
  · exact fun htouch => absurd htouch ht
  · exact hlater x hx

/-- The last event binds a backed entry it touches. -/
theorem Backed.settles {k : κ} {v : ν} (hb : J.Backed ((s, e) :: h) k v) (ht : J.touches e k) :
    J.Settles e k := by
  obtain ⟨later, t, e₀, earlier, v₀, heq, hbinds, -, hlater⟩ := hb
  cases later with
  | nil =>
    obtain ⟨⟨rfl, rfl⟩, rfl⟩ := List.cons.inj heq |>.imp_left Prod.mk.inj
    exact Or.inr ⟨v₀, hbinds⟩
  | cons x later =>
    obtain ⟨rfl, rfl⟩ := List.cons.inj heq
    exact Or.inr (hlater (s, e) List.mem_cons_self ht)

/-- One event leaves all entries backed just when it settles those it touches. -/
theorem backed_cons_iff (hJ : J.Lawful) (hs : J.step s e s')
    (hback : ∀ k v, J.get s k = some v → J.Backed h k v) :
    (∀ k v, J.get s' k = some v → J.Backed ((s, e) :: h) k v) ↔ J.Settling s e := by
  constructor
  · intro hall k v hget ht
    by_contra hns
    obtain ⟨v', hv'⟩ := hJ.kept hs hns hget
    exact hns ((hall k v' hv').settles ht)
  · intro hset k v hget
    by_cases hk : J.Settles e k
    · exact backed_of_binds (hJ.settled hs hk hget)
    · obtain ⟨v₀, hv₀, hcarries⟩ := hJ.carried hs hk hget
      exact (hback k v₀ hv₀).cons hcarries fun ht => hk (hset k v₀ hv₀ ht)

/-- **Every entry is backed all along a run** exactly when every event settles what it touches. -/
theorem along_backed_iff (hJ : J.Lawful) (h₀ : ∀ k, J.get s₀ k = none) (hr : J.Run s₀ h s) :
    Along (fun h s => ∀ k v, J.get s k = some v → J.Backed h k v) h s ↔
      ∀ x ∈ h, J.Settling x.1 x.2 := by
  induction hr with
  | start => exact iff_of_true (fun k v hk => by rw [h₀] at hk; cases hk) (by simp)
  | @step h s s' e _ hs ih =>
    rw [List.forall_mem_cons, ← ih]
    constructor
    · rintro ⟨hlast, hbefore⟩
      exact ⟨(backed_cons_iff hJ hs hbefore.last).mp hlast, hbefore⟩
    · rintro ⟨hset, hbefore⟩
      exact ⟨(backed_cons_iff hJ hs hbefore.last).mpr hset, hbefore⟩

end Journal
