import Mathlib.Data.List.Nodup
import Mathlib.Tactic.Common

/-!
# Machinery/AssocMap — a finite map as a list of bindings

The hash maps a program keeps, with lookup by first binding.  `insert` and `remove` filter the old
bindings of the key out, so iteration over `entries` (`mapVal`) meets a key at most once on any map
built by them; `get` never sees the difference, nor the order that `sorted` puts the bindings in.
-/

/-- A finite map from `κ` to `ν`, as a list of bindings. -/
structure AssocMap (κ ν : Type*) where
  entries : List (κ × ν)

namespace AssocMap

variable {κ ν : Type*} [DecidableEq κ]

/-- The empty map. -/
def empty : AssocMap κ ν := ⟨[]⟩

/-- The value bound to a key. -/
def get (m : AssocMap κ ν) (k : κ) : Option ν :=
  (m.entries.find? fun e => e.1 = k).map Prod.snd

/-- Drop the binding of a key. -/
def remove (m : AssocMap κ ν) (k : κ) : AssocMap κ ν :=
  ⟨m.entries.filter fun e => e.1 ≠ k⟩

/-- Bind a key, dropping the binding it had. -/
def insert (m : AssocMap κ ν) (k : κ) (v : ν) : AssocMap κ ν :=
  ⟨(k, v) :: (m.remove k).entries⟩

/-- Rewrite every value in place. -/
def mapVal (m : AssocMap κ ν) (f : κ → ν → ν) : AssocMap κ ν :=
  ⟨m.entries.map fun e => (e.1, f e.1 e.2)⟩

@[simp] theorem get_empty (k : κ) : (empty : AssocMap κ ν).get k = none := rfl

/-- A found binding is one of the entries. -/
theorem mem_of_get {m : AssocMap κ ν} {k : κ} {v : ν} (h : m.get k = some v) :
    (k, v) ∈ m.entries := by
  obtain ⟨⟨k', v'⟩, hfind, hv⟩ := Option.map_eq_some_iff.mp h
  have hk : k' = k := by simpa using List.find?_some hfind
  have hv' : v' = v := hv
  have hmem := List.mem_of_find?_eq_some hfind
  rwa [hk, hv'] at hmem

@[simp] theorem get_remove_self (m : AssocMap κ ν) (k : κ) : (m.remove k).get k = none := by
  simp [get, remove, List.find?_filter]

theorem get_remove_of_ne (m : AssocMap κ ν) {k k' : κ} (h : k' ≠ k) :
    (m.remove k).get k' = m.get k' := by
  simp only [get, remove, List.find?_filter]
  congr 2
  funext e
  by_cases he : e.1 = k'
  · simp [he, h]
  · simp [he]

theorem get_remove (m : AssocMap κ ν) (k k' : κ) :
    (m.remove k).get k' = if k' = k then none else m.get k' := by
  split
  · next h => rw [h, get_remove_self]
  · next h => exact get_remove_of_ne m h

@[simp] theorem get_insert_self (m : AssocMap κ ν) (k : κ) (v : ν) :
    (m.insert k v).get k = some v := by
  simp [get, insert]

theorem get_insert_of_ne (m : AssocMap κ ν) {k k' : κ} (v : ν) (h : k' ≠ k) :
    (m.insert k v).get k' = m.get k' := by
  rw [← get_remove_of_ne m h]
  simp [get, insert, Ne.symm h]

theorem get_insert (m : AssocMap κ ν) (k k' : κ) (v : ν) :
    (m.insert k v).get k' = if k' = k then some v else m.get k' := by
  split
  · next h => rw [h, get_insert_self]
  · next h => exact get_insert_of_ne m v h

@[simp] theorem get_mapVal (m : AssocMap κ ν) (f : κ → ν → ν) (k : κ) :
    (m.mapVal f).get k = (m.get k).map (f k) := by
  simp only [get, mapVal, List.find?_map, Option.map_map]
  cases hfind : m.entries.find? (fun e => decide (e.1 = k)) with
  | none => simp [Function.comp_def, hfind]
  | some e =>
    have hk : e.1 = k := by simpa using List.find?_some hfind
    simp [Function.comp_def, hfind, hk]

/-! ## Bindings from a list -/

/-- Bind the key of each element of a list to the value it gives, if it gives one. -/
def insertAll {α : Type*} (key : α → κ) (value : α → Option ν) (m : AssocMap κ ν) (l : List α) :
    AssocMap κ ν :=
  l.foldl (fun m a => (value a).elim m (m.insert (key a))) m

/-- The value the last element of a key that gives one gives. -/
def lastValue {α : Type*} (key : α → κ) (value : α → Option ν) (l : List α) (k : κ) : Option ν :=
  l.reverse.findSome? fun a => if key a = k then value a else none

/-- **The last binding wins.** -/
theorem get_insertAll {α : Type*} (key : α → κ) (value : α → Option ν) (m : AssocMap κ ν)
    (l : List α) (k : κ) :
    (m.insertAll key value l).get k = (lastValue key value l k).or (m.get k) := by
  induction l generalizing m with
  | nil => rfl
  | cons a l ih =>
    have hhead : ((value a).elim m (m.insert (key a))).get k =
        (if key a = k then value a else none).or (m.get k) := by
      cases value a with
      | none => simp
      | some v =>
        rw [Option.elim_some, get_insert]
        by_cases hk : key a = k
        · simp [hk]
        · simp [hk, Ne.symm hk]
    have htail := ih ((value a).elim m (m.insert (key a)))
    rw [hhead] at htail
    simpa [insertAll, lastValue, List.findSome?_append, Option.or_assoc] using htail

/-! ## Sorted bindings -/

/-- The bindings in the order of their keys; those of one key stay in the order they have. -/
def sorted (le : κ → κ → Bool) (m : AssocMap κ ν) : AssocMap κ ν :=
  ⟨m.entries.mergeSort fun a b => le a.1 b.1⟩

omit [DecidableEq κ] in
/-- A stable sort leaves elements that are in order among themselves where they are. -/
theorem filter_mergeSort {α : Type*} {le : α → α → Bool} {p : α → Bool} {l : List α}
    (trans : ∀ a b c, le a b → le b c → le a c) (total : ∀ a b, le a b || le b a)
    (hp : (l.filter p).Pairwise fun a b => le a b) : (l.mergeSort le).filter p = l.filter p := by
  have hsub : (l.filter p).Sublist ((l.mergeSort le).filter p) := by
    have h := (List.sublist_mergeSort trans total hp List.filter_sublist).filter p
    simpa only [List.filter_filter, Bool.and_self] using h
  have hlen := ((List.mergeSort_perm l le).filter p).length_eq
  exact (hsub.eq_of_length hlen.symm).symm

/-- The value of the first binding of the key. -/
theorem get_eq_head? (m : AssocMap κ ν) (k : κ) :
    m.get k = (m.entries.filter fun e => e.1 = k).head?.map Prod.snd := by
  rw [List.head?_filter, get]

/-- **Sorting by key keeps what is bound.** -/
theorem get_sorted {le : κ → κ → Bool} (trans : ∀ a b c, le a b → le b c → le a c)
    (total : ∀ a b, le a b || le b a) (m : AssocMap κ ν) (k : κ) :
    (m.sorted le).get k = m.get k := by
  have hkey : (m.entries.filter fun e => e.1 = k).Pairwise fun a b => le a.1 b.1 := by
    refine List.pairwise_of_forall_mem_list fun a ha b hb => ?_
    have ha' : a.1 = k := by simpa using (List.mem_filter.mp ha).2
    have hb' : b.1 = k := by simpa using (List.mem_filter.mp hb).2
    rw [ha', hb']
    simpa using total k k
  rw [get_eq_head?, get_eq_head?, sorted]
  rw [filter_mergeSort (fun a b c => trans a.1 b.1 c.1) (fun a b => total a.1 b.1) hkey]

/-! ## Keys bound once -/

/-- No key is bound twice. -/
def NodupKeys (m : AssocMap κ ν) : Prop := (m.entries.map Prod.fst).Nodup

omit [DecidableEq κ] in
theorem nodupKeys_empty : (empty : AssocMap κ ν).NodupKeys := List.nodup_nil

theorem NodupKeys.remove {m : AssocMap κ ν} (h : m.NodupKeys) (k : κ) : (m.remove k).NodupKeys :=
  h.sublist (List.filter_sublist.map Prod.fst)

theorem NodupKeys.insert {m : AssocMap κ ν} (h : m.NodupKeys) (k : κ) (v : ν) :
    (m.insert k v).NodupKeys := by
  refine List.nodup_cons.mpr ⟨?_, h.remove k⟩
  intro hmem
  obtain ⟨e, he, hk⟩ := List.mem_map.mp hmem
  have hne : e.1 ≠ k := by simpa using (List.mem_filter.mp he).2
  exact hne hk

omit [DecidableEq κ] in
/-- **The order of the bindings does not matter** once they are sorted, where no key is bound
twice. -/
theorem NodupKeys.sorted_perm {le : κ → κ → Bool} {m m' : AssocMap κ ν} (h : m.NodupKeys)
    (trans : ∀ a b c, le a b → le b c → le a c) (total : ∀ a b, le a b || le b a)
    (antisymm : ∀ a b, le a b → le b a → a = b) (hperm : m'.entries.Perm m.entries) :
    m'.sorted le = m.sorted le := by
  have hsorted (l : List (κ × ν)) :
      (l.mergeSort fun a b => le a.1 b.1).Pairwise fun a b => le a.1 b.1 :=
    List.pairwise_mergeSort (fun a b c => trans a.1 b.1 c.1) (fun a b => total a.1 b.1) l
  refine congrArg AssocMap.mk (List.Perm.eq_of_pairwise ?_ (hsorted _) (hsorted _) ?_)
  · intro a b ha hb hab hba
    have ha' := hperm.subset ((List.mergeSort_perm _ _).subset ha)
    have hb' := (List.mergeSort_perm _ _).subset hb
    exact List.inj_on_of_nodup_map h ha' hb' (antisymm a.1 b.1 hab hba)
  · exact (List.mergeSort_perm _ _).trans (hperm.trans (List.mergeSort_perm _ _).symm)

end AssocMap
