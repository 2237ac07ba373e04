import BpfVerifier.Machinery.AssocMap
import BpfVerifier.Machinery.Reader

/-!
# Machinery/Words — an application as its words

A constructor and its arguments are written with a space between them.  `words` takes such a text
apart (`words_unwords`), `apply₁` … `apply₄` read the arguments of a constructor of that many, and
`oneOf` reads a name of a table (`oneOf_of_mem`).
-/

namespace Text

/-- The words of a text. -/
def words (s : Text) : List Text := s.splitOn ' '

/-- Words with a space between them. -/
def unwords (ws : List Text) : Text := [' '].intercalate ws

theorem unwords_cons_cons (w v : Text) (ws : List Text) :
    unwords (w :: v :: ws) = w ++ ' ' :: unwords (v :: ws) := by
  simp only [unwords, List.intercalate_cons_cons, List.append_assoc, List.singleton_append]

@[simp] theorem unwords_singleton (w : Text) : unwords [w] = w := List.intercalate_singleton

/-- What follows the last of some texts follows them all. -/
theorem intercalate_append (sep : Text) (ls : List Text) (v t : Text) :
    sep.intercalate (ls ++ [v ++ t]) = sep.intercalate (ls ++ [v]) ++ t := by
  induction ls with
  | nil => simp
  | cons l ls ih =>
    cases ls with
    | nil => simp [List.intercalate_cons_cons]
    | cons k ls =>
      simp only [List.cons_append, List.intercalate_cons_cons, List.append_assoc] at ih ⊢
      rw [ih]

theorem mem_intercalate {sep : Text} {c : Char} {ws : List Text} (h : c ∈ sep.intercalate ws) :
    c ∈ sep ∨ ∃ w ∈ ws, c ∈ w := by
  induction ws with
  | nil => cases h
  | cons w rest ih =>
    cases rest with
    | nil =>
      rw [List.intercalate_singleton] at h
      exact Or.inr ⟨w, List.mem_cons_self, h⟩
    | cons v rest =>
      rw [List.intercalate_cons_cons, List.mem_append, List.mem_append] at h
      rcases h with (hw | hsep) | hrest
      · exact Or.inr ⟨w, List.mem_cons_self, hw⟩
      · exact Or.inl hsep
      · refine (ih hrest).imp_right ?_
        rintro ⟨u, hu, hc⟩
        exact ⟨u, List.mem_cons_of_mem w hu, hc⟩

theorem subset_intercalate (sep : Text) {w : Text} {ws : List Text} (h : w ∈ ws) :
    w ⊆ sep.intercalate ws := by
  induction ws with
  | nil => cases h
  | cons v ws ih =>
    cases ws with
    | nil =>
      rw [List.mem_singleton.mp h, List.intercalate_singleton]
      exact List.Subset.refl v
    | cons u ws =>
      rw [List.intercalate_cons_cons, List.append_assoc]
      rcases List.mem_cons.mp h with rfl | hmem
      · exact List.subset_append_left _ _
      · exact fun c hc => List.mem_append_right _ (List.mem_append_right _ (ih hmem hc))

/-- **Words are taken apart again.** -/
theorem words_unwords {ws : List Text} (hne : ws ≠ []) (h : ∀ w ∈ ws, ' ' ∉ w) :
    (unwords ws).words = ws := List.splitOn_intercalate ' ' h hne

end Text

namespace Reader

variable {α β γ δ ε : Type}

/-! ## Names -/

/-- One of some names, for what it names. -/
def oneOf (names : List (Text × α)) (t : Text) : Option α := AssocMap.get ⟨names⟩ t

/-- **A name is read as what it names**, where no two are the same. -/
theorem oneOf_of_mem {names : List (Text × α)} (hnames : (names.map Prod.fst).Nodup) {t : Text}
    {a : α} (h : (t, a) ∈ names) : oneOf names t = some a := by
  induction names with
  | nil => cases h
  | cons e names ih =>
    rw [List.map_cons, List.nodup_cons] at hnames
    rw [oneOf, AssocMap.get, List.find?_cons]
    rcases List.mem_cons.mp h with rfl | hmem
    · simp
    · have hne : e.1 ≠ t := fun he => hnames.1 (he ▸ List.mem_map_of_mem hmem)
      rw [decide_eq_false hne]
      exact ih hnames.2 hmem

/-! ## Arguments -/

def apply₁ (f : α → ε) (ra : Text → Option α) : List Text → Option ε
  | [a] => (ra a).map f
  | _ => none

def apply₂ (f : α → β → ε) (ra : Text → Option α) (rb : Text → Option β) : List Text → Option ε
  | [a, b] => do return f (← ra a) (← rb b)
  | _ => none

def apply₃ (f : α → β → γ → ε) (ra : Text → Option α) (rb : Text → Option β)
    (rc : Text → Option γ) : List Text → Option ε
  | [a, b, c] => do return f (← ra a) (← rb b) (← rc c)
  | _ => none

def apply₄ (f : α → β → γ → δ → ε) (ra : Text → Option α) (rb : Text → Option β)
    (rc : Text → Option γ) (rd : Text → Option δ) : List Text → Option ε
  | [a, b, c, d] => do return f (← ra a) (← rb b) (← rc c) (← rd d)
  | _ => none

end Reader
