import Mathlib.Data.List.DropRight

/-!
# Machinery/Buckets — items filed under numbers

`file` puts each item last into the bucket of its number, making the buckets up to it first.  What
is filed is known by what stands in each bucket, since the last one is never empty (`Full.ext`).
Tables whose entries are filed by row come out side by side (`file_entries`).
-/

namespace Buckets

variable {α β : Type}

/-- Put an item into a bucket. -/
def add (buckets : List (List α)) (i : ℕ) (a : α) : List (List α) :=
  (buckets ++ List.replicate (i + 1 - buckets.length) []).modify i (· ++ [a])

/-- File items under their numbers. -/
def file (key : α → ℕ) (items : List α) : List (List α) :=
  items.foldl (fun buckets a => add buckets (key a) a) []

/-- The last bucket, if there is one, is not empty. -/
def Full (buckets : List (List α)) : Prop := ∀ last ∈ buckets.getLast?, last ≠ []

/-! ## What stands in a bucket -/

theorem getD_pad (buckets : List (List α)) (n i : ℕ) :
    (buckets ++ List.replicate n []).getD i [] = buckets.getD i [] := by
  rw [List.getD_eq_getElem?_getD, List.getD_eq_getElem?_getD, List.getElem?_append]
  split
  · rfl
  · next hi =>
    rw [List.getElem?_eq_none (Nat.not_lt.mp hi), List.getElem?_replicate]
    split <;> rfl

theorem getD_add (buckets : List (List α)) (i j : ℕ) (a : α) :
    (add buckets i a).getD j [] = buckets.getD j [] ++ if i = j then [a] else [] := by
  rw [← getD_pad buckets (i + 1 - buckets.length) j, add, List.getD_eq_getElem?_getD,
    List.getElem?_modify, List.getD_eq_getElem?_getD]
  split
  · next h =>
    obtain rfl := h
    have hlt : i < (buckets ++ List.replicate (i + 1 - buckets.length) []).length := by
      simp only [List.length_append, List.length_replicate]
      omega
    rw [List.getElem?_eq_getElem hlt]
    rfl
  · simp

theorem length_add (buckets : List (List α)) (i : ℕ) (a : α) :
    (add buckets i a).length = max buckets.length (i + 1) := by
  rw [add, List.length_modify, List.length_append, List.length_replicate]
  omega

/-- **A bucket holds the items of its number**, in their order. -/
theorem getD_file (key : α → ℕ) (items : List α) (i : ℕ) :
    (file key items).getD i [] = items.filter fun a => key a = i := by
  induction items using List.reverseRecOn with
  | nil => rfl
  | append_singleton items a ih =>
    rw [file, List.foldl_append, List.foldl_cons, List.foldl_nil, getD_add, ← file, ih,
      List.filter_append]
    congr 1
    by_cases h : key a = i <;> simp [h]

theorem file_eq_nil {key : α → ℕ} {items : List α} : file key items = [] ↔ items = [] := by
  refine ⟨fun h => ?_, fun h => h ▸ rfl⟩
  by_contra hne
  obtain ⟨a, rest, rfl⟩ := List.exists_cons_of_ne_nil hne
  have hbucket := getD_file key (a :: rest) (key a)
  rw [h, List.filter_cons_of_pos (by simp)] at hbucket
  cases hbucket

/-! ## Buckets known by what stands in them -/

theorem getLast?_eq (buckets : List (List α)) (h : buckets ≠ []) :
    buckets.getLast? = some (buckets.getD (buckets.length - 1) []) := by
  have hlt : buckets.length - 1 < buckets.length :=
    Nat.sub_lt (List.length_pos_iff.mpr h) Nat.one_pos
  rw [List.getLast?_eq_getElem?, List.getD_eq_getElem?_getD, List.getElem?_eq_getElem hlt]
  rfl

theorem Full.getD_ne_nil {buckets : List (List α)} (h : Full buckets) (hne : buckets ≠ []) :
    buckets.getD (buckets.length - 1) [] ≠ [] := h _ (getLast?_eq buckets hne)

theorem Full.length_le {left right : List (List α)} (h : Full left)
    (heq : ∀ i, left.getD i [] = right.getD i []) : left.length ≤ right.length := by
  by_contra hlt
  have hne : left ≠ [] := by
    rintro rfl
    exact hlt (Nat.zero_le _)
  refine h.getD_ne_nil hne ?_
  rw [heq, List.getD_eq_getElem?_getD, List.getElem?_eq_none (by omega)]
  rfl

/-- **Buckets that hold the same are the same.** -/
theorem Full.ext {left right : List (List α)} (h : Full left) (h' : Full right)
    (heq : ∀ i, left.getD i [] = right.getD i []) : left = right := by
  have hlen : left.length = right.length :=
    Nat.le_antisymm (h.length_le heq) (h'.length_le fun i => (heq i).symm)
  refine List.ext_getElem hlen fun i hi hi' => ?_
  simpa [List.getD_eq_getElem?_getD, hi, hi'] using heq i

theorem full_add {buckets : List (List α)} (h : Full buckets) (i : ℕ) (a : α) :
    Full (add buckets i a) := by
  intro last hlast
  have hne : add buckets i a ≠ [] := by
    rw [← List.length_pos_iff, length_add]
    omega
  rw [getLast?_eq _ hne, Option.mem_some_iff, length_add, getD_add] at hlast
  subst hlast
  by_cases hi : i + 1 ≤ buckets.length
  · have hbuckets : buckets ≠ [] := List.ne_nil_of_length_pos (by omega)
    have hmax : max buckets.length (i + 1) = buckets.length := by omega
    rw [hmax]
    exact List.append_ne_nil_of_left_ne_nil (h.getD_ne_nil hbuckets) _
  · have hmax : max buckets.length (i + 1) - 1 = i := by omega
    rw [hmax, if_pos rfl]
    exact List.append_ne_nil_of_right_ne_nil _ (List.cons_ne_nil a [])

theorem full_file (key : α → ℕ) (items : List α) : Full (file key items) := by
  induction items using List.reverseRecOn with
  | nil => exact fun last hlast => by cases hlast
  | append_singleton items a ih =>
    rw [file, List.foldl_append]
    exact full_add ih (key a) a

theorem getD_map (f : List α → List β) (hf : f [] = []) (buckets : List (List α)) (i : ℕ) :
    (buckets.map f).getD i [] = f (buckets.getD i []) := by
  simp only [List.getD_eq_getElem?_getD, List.getElem?_map]
  cases buckets[i]? <;> simp [hf]

theorem Full.map {buckets : List (List α)} (h : Full buckets) (f : α → β) :
    Full (buckets.map (List.map f)) := by
  intro last hlast
  rw [List.getLast?_map, Option.mem_def, Option.map_eq_some_iff] at hlast
  obtain ⟨bucket, hbucket, rfl⟩ := hlast
  exact mt List.map_eq_nil_iff.mp (h bucket hbucket)

/-! ## Empty buckets at the end -/

/-- Drop the empty buckets at the end. -/
def dropEmpty (buckets : List (List α)) : List (List α) := buckets.rdropWhile List.isEmpty

theorem full_dropEmpty (buckets : List (List α)) : Full (dropEmpty buckets) := by
  intro last hlast hnil
  have hne : dropEmpty buckets ≠ [] := by
    intro h
    rw [h] at hlast
    cases hlast
  have hkeep := List.rdropWhile_last_not List.isEmpty buckets hne
  rw [List.getLast?_eq_some_getLast hne, Option.mem_some_iff] at hlast
  have hempty : (dropEmpty buckets).getLast hne = [] := hlast.trans hnil
  exact hkeep (List.isEmpty_iff.mpr hempty)

theorem getD_dropEmpty (buckets : List (List α)) (i : ℕ) :
    (dropEmpty buckets).getD i [] = buckets.getD i [] := by
  induction buckets using List.reverseRecOn with
  | nil => rfl
  | append_singleton buckets last ih =>
    by_cases hlast : last.isEmpty = true
    · have hpad := getD_pad buckets 1 i
      obtain rfl := List.isEmpty_iff.mp hlast
      rw [dropEmpty, List.rdropWhile_concat_pos _ _ _ hlast]
      exact ih.trans hpad.symm
    · rw [dropEmpty, List.rdropWhile_concat_neg _ _ _ hlast]

/-! ## Tables side by side -/

/-- Two tables side by side, row by row. -/
def beside : List (List α) → List (List α) → List (List α)
  | [], right => right
  | left, [] => left
  | row :: left, row' :: right => (row ++ row') :: beside left right

theorem getD_beside (left right : List (List α)) (i : ℕ) :
    (beside left right).getD i [] = left.getD i [] ++ right.getD i [] := by
  induction left generalizing right i with
  | nil => simp [beside]
  | cons row left ih =>
    cases right with
    | nil => simp [beside]
    | cons row' right =>
      rw [beside]
      cases i with
      | zero => rfl
      | succ i => simpa using ih right i

/-- Tables side by side. -/
def columns (tables : List (List (List α))) : List (List α) := tables.foldr beside []

theorem getD_columns (tables : List (List (List α))) (i : ℕ) :
    (columns tables).getD i [] = tables.flatMap fun table => table.getD i [] := by
  induction tables with
  | nil => rfl
  | cons table tables ih => rw [columns, List.foldr_cons, getD_beside, ← columns, ih,
      List.flatMap_cons]

/-- The entries of a table, row by row, with the numbers of their rows from one on. -/
def entries (n : ℕ) (table : List (List α)) : List (ℕ × α) :=
  (table.zipIdx n).flatMap fun row => row.1.map fun a => (row.2, a)

theorem entries_cons (n : ℕ) (row : List α) (table : List (List α)) :
    entries n (row :: table) = row.map (fun a => (n, a)) ++ entries (n + 1) table := rfl

theorem entries_map (f : α → β) (n : ℕ) (table : List (List α)) :
    entries n (table.map (List.map f)) = (entries n table).map fun e => (e.1, f e.2) := by
  simp [entries, List.zipIdx_map, List.flatMap_map, List.map_flatMap, Function.comp_def]

theorem mem_entries {n : ℕ} {table : List (List α)} {e : ℕ × α} (h : e ∈ entries n table) :
    e.1 < n + table.length ∧ ∃ row ∈ table, e.2 ∈ row := by
  obtain ⟨⟨row, i⟩, hrow, hmem⟩ := List.mem_flatMap.mp h
  obtain ⟨a, ha, rfl⟩ := List.mem_map.mp hmem
  obtain ⟨-, hi, hrow⟩ := List.mem_zipIdx hrow
  exact ⟨by omega, row, hrow ▸ List.getElem_mem _, ha⟩

theorem entries_append (n : ℕ) (table table' : List (List α)) :
    entries n (table ++ table') = entries n table ++ entries (n + table.length) table' := by
  rw [entries, List.zipIdx_append, List.flatMap_append]
  rfl

/-- The entries of one row. -/
theorem filter_entries (n i : ℕ) (table : List (List α)) :
    ((entries n table).filter fun e => e.1 = n + i).map Prod.snd = table.getD i [] := by
  induction table generalizing n i with
  | nil => rfl
  | cons row table ih =>
    rw [entries_cons, List.filter_append, List.map_append]
    cases i with
    | zero =>
      have hnone : (entries (n + 1) table).filter (fun e => e.1 = n + 0) = [] := by
        rw [List.filter_eq_nil_iff]
        intro e he
        obtain ⟨row, hrow, hmem⟩ := List.mem_flatMap.mp he
        obtain ⟨a, -, rfl⟩ := List.mem_map.mp hmem
        have hle := (List.mem_zipIdx hrow).1
        simp only [decide_eq_true_eq]
        omega
      rw [hnone]
      simp [List.filter_map, Function.comp_def]
    | succ i =>
      have hnone : (row.map fun a => (n, a)).filter (fun e => e.1 = n + (i + 1)) = [] := by
        simp [List.filter_map, Function.comp_def]
      have hshift : n + (i + 1) = n + 1 + i := by omega
      rw [hnone, hshift, ih]
      rfl

/-- What is kept of a row of several tables. -/
theorem filter_flatMap_entries (p : α → Bool) (tables : List (List (List α))) (i : ℕ) :
    (((tables.flatMap (entries 0)).filter fun e => p e.2).filter fun e => e.1 = i).map Prod.snd =
      ((columns tables).getD i []).filter p := by
  rw [getD_columns]
  induction tables with
  | nil => rfl
  | cons table tables ih =>
    have htable := filter_entries 0 i table
    rw [Nat.zero_add] at htable
    rw [List.flatMap_cons, List.flatMap_cons, List.filter_append, List.filter_append,
      List.map_append, List.filter_append, ← htable, ih, List.filter_map, List.filter_filter,
      List.filter_filter]
    simp only [Function.comp_def, Bool.and_comm]

theorem map_file (key : α → ℕ) (f : β → α) (items : List β) :
    file key (items.map f) = (file (fun b => key (f b)) items).map (List.map f) := by
  refine (full_file key _).ext ((full_file _ items).map f) fun i => ?_
  rw [getD_map _ rfl, getD_file, getD_file, List.filter_map]
  rfl

/-- **The entries of tables, filed by row, are the tables side by side**, without the rows at the
end that nothing is kept of. -/
theorem file_entries (p : α → Bool) (tables : List (List (List α))) :
    (file Prod.fst ((tables.flatMap (entries 0)).filter fun e => p e.2)).map (List.map Prod.snd) =
      dropEmpty ((columns tables).map (List.filter p)) := by
  refine ((full_file Prod.fst _).map Prod.snd).ext (full_dropEmpty _) fun i => ?_
  rw [getD_map _ rfl, getD_file, getD_dropEmpty, getD_map _ rfl, filter_flatMap_entries]

end Buckets
