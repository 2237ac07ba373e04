import BpfVerifier.Machinery.TextSearch

/-!
# Machinery/Reader — reading a notation back

A reader takes a value off the start of a text.  `Reads read t a` says that `read` takes `a` off `t`
whatever follows, as long as the text does not go on with a digit; there is one rule for each way a
notation is put together (numbers, pairs, lists, marked values), and `readAll_of_reads` for a text
that is read to its end.
-/

/-- A reader of values of a type: what it takes off, and the text after it. -/
abbrev Reader (α : Type) := Text → Option (α × Text)

namespace Reader

open Text (stripPrefix)

variable {α β : Type}

/-! ## Readers -/

/-- Read nothing. -/
def pure (a : α) : Reader α := fun s => some (a, s)

def map (f : α → β) (read : Reader α) : Reader β := fun s =>
  (read s).map fun r => (f r.1, r.2)

/-- A given text, and then a value. -/
def after (p : Text) (read : Reader α) : Reader α := fun s => (stripPrefix p s).bind read

/-- A value, and then a given text. -/
def upTo (p : Text) (read : Reader α) : Reader α := fun s =>
  (read s).bind fun r => (stripPrefix p r.2).map fun rest => (r.1, rest)

/-- The second reader, where the first fails. -/
def orElse (read read' : Reader α) : Reader α := fun s => (read s).or (read' s)

/-- A natural number in decimal. -/
def nat : Reader ℕ := fun s =>
  let digits := s.takeWhile Char.isDigit
  if digits = [] then none else some (Nat.ofDigitChars 10 digits 0, s.dropWhile Char.isDigit)

/-- A number with its sign. -/
def int : Reader ℤ :=
  (after "-".toList (nat.map fun n : ℕ => -(n : ℤ))).orElse (nat.map fun n : ℕ => (n : ℤ))

/-- A number as an argument: one with a sign stands in parentheses. -/
def argument : Reader ℤ :=
  (after "(".toList (upTo ")".toList int)).orElse (nat.map fun n : ℕ => (n : ℤ))

/-- `(a, b)`. -/
def pair (read : Reader α) (read' : Reader β) : Reader (α × β) := fun s => do
  let (a, s) ← after "(".toList (upTo ", ".toList read) s
  let (b, s) ← upTo ")".toList read' s
  return ((a, b), s)

/-- `a; …; z]`, of at most as many items as the fuel. -/
def items (read : Reader α) : ℕ → Reader (List α)
  | 0, _ => none
  | fuel + 1, s => do
    let (a, s) ← read s
    match stripPrefix "; ".toList s with
    | some s =>
      let (l, s) ← items read fuel s
      return (a :: l, s)
    | none => upTo "]".toList (pure [a]) s

/-- `[a; …; z]` or `[]`. -/
def list (read : Reader α) : Reader (List α) := fun s => do
  let s ← stripPrefix "[".toList s
  match stripPrefix "]".toList s with
  | some s => return ([], s)
  | none => items read s.length s

/-- The value of a whole text. -/
def readAll (read : Reader α) (s : Text) : Option α :=
  (read s).bind fun r => if r.2 = [] then some r.1 else none

/-! ## Given texts -/

theorem stripPrefix_append (p s : Text) : stripPrefix p (p ++ s) = some s := by
  have hprefix : p.isPrefixOf (p ++ s) = true :=
    List.isPrefixOf_iff_prefix.mpr (List.prefix_append p s)
  rw [stripPrefix, if_pos hprefix, List.drop_left]

/-- Two texts that differ at some position both have. -/
def Diverge (p q : Text) : Prop := ¬p <+: q ∧ ¬q <+: p

instance (p q : Text) : Decidable (Diverge p q) := inferInstanceAs (Decidable (_ ∧ _))

theorem stripPrefix_of_diverge {p q : Text} (h : Diverge p q) (s : Text) :
    stripPrefix p (q ++ s) = none := by
  refine if_neg fun hprefix => ?_
  rcases List.prefix_or_prefix_of_prefix (List.isPrefixOf_iff_prefix.mp hprefix)
    (List.prefix_append q s) with hpq | hqp
  · exact h.1 hpq
  · exact h.2 hqp

/-! ## What is read -/

/-- The text does not go on with a digit. -/
def StopsNumber (rest : Text) : Prop := ∀ c ∈ rest.head?, c.isDigit = false

/-- **A text is read as a value**, whatever follows that does not go on with a digit. -/
def Reads (read : Reader α) (t : Text) (a : α) : Prop :=
  ∀ rest, StopsNumber rest → read (t ++ rest) = some (a, rest)

theorem stopsNumber_nil : StopsNumber [] := fun c hc => by cases hc

theorem stopsNumber_cons {c : Char} (hc : c.isDigit = false) (rest : Text) :
    StopsNumber (c :: rest) := by
  intro d hd
  obtain rfl : c = d := by simpa using hd
  exact hc

/-- A text read as a value is one that a whole text is read as. -/
theorem readAll_of_reads {read : Reader α} {t : Text} {a : α} (h : Reads read t a) :
    readAll read t = some a := by
  have hread := h [] stopsNumber_nil
  rw [List.append_nil] at hread
  rw [readAll, hread, Option.bind_some, if_pos rfl]

namespace Reads

variable {read : Reader α} {read' : Reader β} {t u : Text} {a : α} {b : β}

theorem pure (a : α) : Reads (pure a) [] a := fun _ _ => rfl

theorem map (f : α → β) (h : Reads read t a) : Reads (map f read) t (f a) := by
  intro rest hrest
  rw [Reader.map, h rest hrest, Option.map_some]

theorem after (p : Text) (h : Reads read t a) : Reads (after p read) (p ++ t) a := by
  intro rest hrest
  rw [Reader.after, List.append_assoc, stripPrefix_append, Option.bind_some, h rest hrest]

/-- A value that a given text ends is read whatever follows. -/
theorem upTo {p : Text} (hp : ∀ rest, StopsNumber (p ++ rest)) (h : Reads read t a)
    (rest : Text) : upTo p read (t ++ (p ++ rest)) = some (a, rest) := by
  rw [Reader.upTo, h _ (hp rest), Option.bind_some, stripPrefix_append, Option.map_some]

theorem orElse_left {first second : Reader α} (h : Reads first t a) :
    Reads (first.orElse second) t a := by
  intro rest hrest
  rw [Reader.orElse, h rest hrest, Option.some_or]

theorem orElse_right {first second : Reader α} (hfails : ∀ rest, first (t ++ rest) = none)
    (h : Reads second t a) : Reads (first.orElse second) t a := by
  intro rest hrest
  rw [Reader.orElse, hfails, Option.none_or, h rest hrest]

/-- **A number is read back.** -/
theorem nat (n : ℕ) : Reads nat (toString n).toList n := by
  intro rest hrest
  have htext : (toString n).toList = Nat.toDigits 10 n := Nat.toList_repr
  have hdigits : ∀ c ∈ Nat.toDigits 10 n, c.isDigit = true := fun c hc =>
    Nat.isDigit_of_mem_toDigits (by decide) (by decide) hc
  have hrest' : rest.takeWhile Char.isDigit = [] ∧ rest.dropWhile Char.isDigit = rest := by
    cases rest with
    | nil => exact ⟨rfl, rfl⟩
    | cons c rest =>
      have hc : c.isDigit = false := hrest c rfl
      simp [hc]
  have htake : (Nat.toDigits 10 n ++ rest).takeWhile Char.isDigit = Nat.toDigits 10 n := by
    rw [List.takeWhile_append_of_pos hdigits, hrest'.1, List.append_nil]
  have hdrop : (Nat.toDigits 10 n ++ rest).dropWhile Char.isDigit = rest := by
    rw [List.dropWhile_append_of_pos hdigits, hrest'.2]
  simp only [Reader.nat, htext, htake, hdrop]
  rw [if_neg Nat.toDigits_ne_nil, Nat.ofDigitChars_ten_toDigits]

/-- A number starts with a digit. -/
theorem stripPrefix_toString {c : Char} (hc : c.isDigit = false) (p : Text) (n : ℕ) (rest : Text) :
    stripPrefix (c :: p) ((toString n).toList ++ rest) = none := by
  have htext : (toString n).toList = Nat.toDigits 10 n := Nat.toList_repr
  obtain ⟨d, ds, hds⟩ := List.exists_cons_of_ne_nil (Nat.toDigits_ne_nil (b := 10) (n := n))
  have hdigit : d.isDigit = true :=
    Nat.isDigit_of_mem_toDigits (by decide) (by decide) (hds ▸ List.mem_cons_self)
  have hne : c ≠ d := by
    rintro rfl
    exact absurd hdigit (by simp [hc])
  rw [htext, hds]
  exact if_neg (by simp [List.isPrefixOf, hne])

/-- A number without a sign is read as one, where a sign or a parenthesis may stand. -/
theorem unsigned {c : Char} (hc : c.isDigit = false) (p : Text) (read : Reader ℤ) {z : ℤ}
    (hz : 0 ≤ z) : Reads ((Reader.after (c :: p) read).orElse (Reader.nat.map fun n : ℕ => (n : ℤ)))
      (toString z).toList z := by
  have hnat := (nat z.toNat).map fun n : ℕ => (n : ℤ)
  rw [Int.toNat_of_nonneg hz] at hnat
  rw [Int.toString_eq_repr, Int.repr_eq_if, if_pos hz]
  refine orElse_right (fun rest => ?_) hnat
  have hnone := stripPrefix_toString hc p z.toNat rest
  exact congrArg (Option.bind · read) hnone

/-- **A number is read back with its sign.** -/
theorem int (z : ℤ) : Reads int (toString z).toList z := by
  by_cases hz : z < 0
  · have hnat := (nat (-z).toNat).map fun n : ℕ => -(n : ℤ)
    have hvalue : -(((-z).toNat : ℕ) : ℤ) = z := by omega
    rw [hvalue] at hnat
    rw [Int.toString_eq_repr, Int.repr_eq_if, if_neg (by omega), String.toList_append]
    exact orElse_left (hnat.after _)
  · exact unsigned (c := '-') (by decide) [] _ (by omega)

/-- **An argument is read back.** -/
theorem argument (z : ℤ) : Reads argument
    (if z < 0 then "(".toList ++ (toString z).toList ++ ")".toList else (toString z).toList) z := by
  split
  · have hclose (rest : Text) : StopsNumber (")".toList ++ rest) := stopsNumber_cons (by decide) _
    have hread : Reads (Reader.upTo ")".toList Reader.int)
        ((toString z).toList ++ ")".toList) z := by
      intro rest _
      rw [List.append_assoc, (int z).upTo hclose]
    rw [List.append_assoc]
    exact orElse_left (hread.after _)
  · exact unsigned (c := '(') (by decide) [] _ (by omega)

/-- **A pair is read back** from what its parts are read from. -/
theorem pair (h : Reads read t a) (h' : Reads read' u b) :
    Reads (pair read read') ("(".toList ++ t ++ ", ".toList ++ u ++ ")".toList) (a, b) := by
  intro rest hrest
  have hcomma (rest : Text) : StopsNumber (", ".toList ++ rest) := stopsNumber_cons (by decide) _
  have hclose (rest : Text) : StopsNumber (")".toList ++ rest) := stopsNumber_cons (by decide) _
  simp only [List.append_assoc, Reader.pair, Reader.after, stripPrefix_append, Option.bind_eq_bind,
    Option.bind_some, h.upTo hcomma, h'.upTo hclose, Option.pure_def]

/-! ## Lists -/

/-- Each item of a list takes a character, the one after it apart from it. -/
theorem length_le_length_intercalate {sep : Text} (hsep : sep ≠ []) :
    ∀ texts : List Text, texts.length ≤ (sep.intercalate texts).length + 1
  | [] => Nat.zero_le _
  | [_] => Nat.succ_le_succ (Nat.zero_le _)
  | t :: u :: texts => by
      have ih := length_le_length_intercalate hsep (u :: texts)
      have hpos := List.length_pos_iff.mpr hsep
      rw [List.intercalate_cons_cons]
      simp only [List.length_cons, List.length_append] at *
      omega

/-- The items are read back, with fuel for each. -/
theorem items {γ : Type} {text : γ → Text} {value : γ → α} :
    ∀ {l : List γ} {fuel : ℕ}, l ≠ [] → l.length ≤ fuel →
      (∀ c ∈ l, Reads read (text c) (value c)) → ∀ rest,
        items read fuel ("; ".toList.intercalate (l.map text) ++ ("]".toList ++ rest)) =
          some (l.map value, rest)
  | [], _, hne, _, _, _ => absurd rfl hne
  | [c], fuel + 1, _, _, h, rest => by
      have hstop : StopsNumber ("]".toList ++ rest) := stopsNumber_cons (by decide) _
      have hread := h c List.mem_cons_self _ hstop
      have hnext := stripPrefix_of_diverge (by decide : Diverge "; ".toList "]".toList) rest
      simp only [List.map_cons, List.map_nil, List.intercalate_singleton, Reader.items, hread,
        hnext, Option.bind_eq_bind, Option.bind_some, Reader.upTo, Reader.pure, stripPrefix_append,
        Option.map_some]
  | c :: d :: l, fuel + 1, _, hfuel, h, rest => by
      have ih := items (List.cons_ne_nil d l) (Nat.le_of_succ_le_succ hfuel)
        (fun x hx => h x (List.mem_cons_of_mem c hx)) rest
      have hread (rest : Text) : read (text c ++ ("; ".toList ++ rest)) =
          some (value c, "; ".toList ++ rest) :=
        h c List.mem_cons_self _ (stopsNumber_cons (by decide) _)
      have hcons : "; ".toList.intercalate ((c :: d :: l).map text) =
          text c ++ "; ".toList ++ "; ".toList.intercalate ((d :: l).map text) :=
        List.intercalate_cons_cons
      rw [hcons]
      simp only [List.append_assoc, Reader.items, hread, stripPrefix_append, Option.bind_eq_bind,
        Option.bind_some, ih]
      rfl

/-- **A list is read back** from what its items are read from, which are not to start with the
bracket that closes it. -/
theorem list {γ : Type} {text : γ → Text} {value : γ → α} {l : List γ}
    (h : ∀ c ∈ l, Reads read (text c) (value c))
    (hopen : ∀ c ∈ l, ∀ rest, stripPrefix "]".toList (text c ++ rest) = none) :
    Reads (list read) ("[".toList ++ "; ".toList.intercalate (l.map text) ++ "]".toList)
      (l.map value) := by
  intro rest _
  rw [List.append_assoc, List.append_assoc, Reader.list, stripPrefix_append]
  cases l with
  | nil => rfl
  | cons c l =>
    have hfirst : stripPrefix "]".toList
        ("; ".toList.intercalate ((c :: l).map text) ++ ("]".toList ++ rest)) = none := by
      cases l with
      | nil =>
        rw [List.map_singleton, List.intercalate_singleton]
        exact hopen c List.mem_cons_self _
      | cons d l =>
        rw [List.map_cons, List.map_cons, List.intercalate_cons_cons, List.append_assoc,
          List.append_assoc]
        exact hopen c List.mem_cons_self _
    have hsep : "; ".toList ≠ [] := by decide
    have hlen := length_le_length_intercalate hsep ((c :: l).map text)
    have hfuel : (c :: l).length ≤
        ("; ".toList.intercalate ((c :: l).map text) ++ ("]".toList ++ rest)).length := by
      have hclose : "]".toList.length = 1 := by decide
      rw [List.length_map] at hlen
      simp only [List.length_append, hclose]
      omega
    simp only [Option.bind_eq_bind, Option.bind_some, hfirst]
    exact items (List.cons_ne_nil c l) hfuel h rest

end Reads

end Reader
