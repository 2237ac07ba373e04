import BpfVerifier.Machinery.Terms
import Mathlib.Data.List.Chain

/-!
# Machinery/Comments — texts whose comments do not close where they end

A text made of code, of strings and of comments (`Parts`) has tokens only if no comment opens
another (`Parts.isPlain_of_lex`).  Inside a comment code is only read over, so that one level that
stays open stays open to the end.  `Remarks s Q` says that such a text has tokens only where `Q`
holds; there is a rule for each way texts are put together.
-/

namespace Terms

/-! ## What a text leads to -/

/-- From a mode every text that starts so is refused, or read on in a mode of some kind. -/
def Leads (m : Mode) (s : Text) (Q : Mode → Prop) : Prop :=
  (∀ rest, lexFrom m (s ++ rest) = none) ∨
    ∃ n tokens, Q n ∧ ∀ rest, lexFrom m (s ++ rest) = (lexFrom n rest).map (tokens ++ ·)

namespace Leads

variable {m n : Mode} {s t : Text} {Q R : Mode → Prop}

theorem nil (h : Q m) : Leads m [] Q :=
  Or.inr ⟨m, [], h, fun rest => by rw [List.nil_append]; exact Option.map_id'.symm⟩

theorem append (hs : Leads m s Q) (ht : ∀ n, Q n → Leads n t R) : Leads m (s ++ t) R := by
  rcases hs with hnone | ⟨n, tokens, hn, hs⟩
  · exact Or.inl fun rest => by rw [List.append_assoc, hnone]
  · rcases ht n hn with hnone | ⟨n', tokens', hn', ht⟩
    · exact Or.inl fun rest => by rw [List.append_assoc, hs, hnone, Option.map_none]
    · refine Or.inr ⟨n', tokens ++ tokens', hn', fun rest => ?_⟩
      rw [List.append_assoc, hs, ht, Option.map_map]
      simp only [Function.comp_def, List.append_assoc]

theorem mono (h : Leads m s Q) (hQ : ∀ n, Q n → R n) : Leads m s R :=
  h.imp id fun ⟨n, tokens, hn, hs⟩ => ⟨n, tokens, hQ n hn, hs⟩

/-- One character, and the rest. -/
theorem cons {c : Char} (hc : ∀ tokens n, step m c = some (tokens, n) → Leads n s Q) :
    Leads m (c :: s) Q := by
  cases hstep : step m c with
  | none => exact Or.inl fun rest => by rw [List.cons_append, lexFrom, hstep, Option.bind_none]
  | some r =>
    obtain ⟨tokens, n⟩ := r
    have hread (rest : Text) :
        lexFrom m (c :: s ++ rest) = (lexFrom n (s ++ rest)).map (tokens ++ ·) := by
      rw [List.cons_append, lexFrom, hstep, Option.bind_some]
    rcases hc tokens n hstep with hnone | ⟨n', tokens', hn', hs⟩
    · exact Or.inl fun rest => by rw [hread, hnone, Option.map_none]
    · refine Or.inr ⟨n', tokens ++ tokens', hn', fun rest => ?_⟩
      rw [hread, hs, Option.map_map]
      simp only [Function.comp_def, List.append_assoc]

end Leads

/-! ## Inside a comment -/

/-- No end of a comment. -/
def NoClose (s : Text) : Prop := s.IsChain fun a b => ¬(a = '*' ∧ b = ')')

/-- In a comment, and not between the two characters that end one. -/
def Sunk (m : Mode) : Prop := ∃ depth, m = .comment depth ∨ m = .commentOpen depth

/-- In a comment of some depth, after the character `p`. -/
inductive Inside : ℕ → Char → Mode → Prop
  | comment {depth : ℕ} {p : Char} : p ≠ '(' → Inside depth p (.comment depth)
  | opening {depth : ℕ} : Inside depth '(' (.commentOpen depth)
  | star {depth : ℕ} : Inside depth '*' (.commentStar depth)

/-- One character of a comment that does not end it. -/
theorem Inside.step {depth : ℕ} {p c : Char} {m : Mode} (h : Inside depth p m)
    (hclose : ¬(p = '*' ∧ c = ')')) :
    ∃ n, Terms.step m c = some ([], n) ∧
      if p = '(' ∧ c = '*' then Inside (depth + 1) c n else Inside depth c n := by
  by_cases hopen : c = '('
  · subst hopen
    refine ⟨.commentOpen depth, ?_, ?_⟩
    · cases h <;> simp [Terms.step]
    · rw [if_neg (by simp)]
      exact .opening
  · by_cases hstar : c = '*'
    · subst hstar
      cases h with
      | comment hp =>
        refine ⟨.commentStar depth, by simp [Terms.step], ?_⟩
        rw [if_neg (by simp [hp])]
        exact .star
      | opening =>
        refine ⟨.comment (depth + 1), by simp [Terms.step], ?_⟩
        rw [if_pos ⟨rfl, rfl⟩]
        exact .comment (by decide)
      | star =>
        refine ⟨.commentStar depth, by simp [Terms.step], ?_⟩
        rw [if_neg (by simp)]
        exact .star
    · refine ⟨.comment depth, ?_, ?_⟩
      · cases h with
        | comment hp => simp [Terms.step, hopen, hstar]
        | opening => simp [Terms.step, hopen, hstar]
        | star =>
          have hc : c ≠ ')' := fun hc => hclose ⟨rfl, hc⟩
          simp [Terms.step, hopen, hstar, hc]
      · rw [if_neg (fun hc => hstar hc.2)]
        exact .comment hopen

/-- **A text without an end of a comment** leaves a comment as deep as it was, and deeper unless it
is plain. -/
theorem Inside.run {s : Text} {depth : ℕ} {p : Char} {m : Mode} (h : Inside depth p m)
    (hs : NoClose (p :: s)) :
    ∃ depth' p' n, Inside depth' p' n ∧ depth ≤ depth' ∧
      (isPlain (p :: s) = true ↔ depth' = depth) ∧
      ∀ rest, lexFrom m (s ++ rest) = lexFrom n rest := by
  induction s generalizing depth p m with
  | nil => exact ⟨depth, p, m, h, Nat.le_refl _, by simp [isPlain], fun _ => rfl⟩
  | cons c s ih =>
    obtain ⟨hclose, hrest⟩ := List.isChain_cons_cons.mp hs
    obtain ⟨n, hstep, hn⟩ := h.step hclose
    have hread (rest : Text) : lexFrom m (c :: s ++ rest) = lexFrom n (s ++ rest) :=
      lexFrom_silent hstep (s ++ rest)
    split at hn
    · next hopen =>
      obtain ⟨depth', p', n', hn', hle, -, hrun⟩ := ih hn hrest
      refine ⟨depth', p', n', hn', by omega, iff_of_false ?_ (by omega),
        fun rest => (hread rest).trans (hrun rest)⟩
      simp [isPlain, hopen.1, hopen.2]
    · next hopen =>
      obtain ⟨depth', p', n', hn', hle, hplain, hrun⟩ := ih hn hrest
      refine ⟨depth', p', n', hn', hle, ?_, fun rest => (hread rest).trans (hrun rest)⟩
      have hhead : decide (¬(p = '(' ∧ (c :: s).head? = some '*') ∧
          ¬(p = '*' ∧ (c :: s).head? = some ')')) = true :=
        decide_eq_true ⟨fun hc => hopen ⟨hc.1, by simpa using hc.2⟩,
          fun hc => hclose ⟨hc.1, by simpa using hc.2⟩⟩
      rw [← hplain, isPlain, hhead, Bool.true_and]

/-- **The end of a comment** ends what it says, when that is plain. -/
theorem comment_run {s : Text} (hs : NoClose s) (depth : ℕ) :
    ∃ depth', depth ≤ depth' ∧ (isPlain s = true ↔ depth' = depth) ∧
      ∀ rest, lexFrom (.comment depth) (s ++ ' ' :: '*' :: ')' :: rest) =
        lexFrom (if depth' = 0 then .gap else .comment (depth' - 1)) rest := by
  have hspace : NoClose (' ' :: s) := by
    cases s with
    | nil => exact .singleton _
    | cons c s => exact List.isChain_cons_cons.mpr ⟨fun h => absurd h.1 (by decide), hs⟩
  obtain ⟨depth', p', n, hn, hle, hplain, hrun⟩ :=
    (@Inside.comment depth ' ' (by decide)).run hspace
  have hspaced : isPlain (' ' :: s) = isPlain s := by
    cases s <;> rfl
  refine ⟨depth', hle, hspaced ▸ hplain, fun rest => ?_⟩
  have hgap : step n ' ' = some ([], .comment depth') := by cases hn <;> rfl
  rw [hrun, lexFrom_silent hgap, lexFrom_silent (n := .commentStar depth') rfl]
  exact lexFrom_silent rfl rest

/-! ## Code, strings and comments -/

/-- **Texts made of code, of strings and of comments**, with what the comments say. -/
inductive Parts : Text → List Text → Prop
  | code {s : Text} : '*' ∉ s → '"' ∉ s → Parts s []
  | str {s : Text} : IsLiteral s → '*' ∉ s → Parts (quoted s) []
  | comment (s : Text) : Parts ("(* ".toList ++ s ++ " *)".toList) [s]
  | append {s t : Text} {bs cs : List Text} : Parts s bs → Parts t cs → Parts (s ++ t) (bs ++ cs)

/-- Without a star a comment goes on. -/
theorem leads_sunk_of_not_mem {s : Text} (hs : '*' ∉ s) {m : Mode} (hm : Sunk m) :
    Leads m s Sunk := by
  induction s generalizing m with
  | nil => exact .nil hm
  | cons c s ih =>
    obtain ⟨hc, hs⟩ := not_or.mp (mt List.mem_cons.mpr hs)
    refine .cons fun tokens n hstep => ih hs ?_
    obtain ⟨depth, rfl | rfl⟩ := hm
    · obtain ⟨-, rfl⟩ := Prod.mk.inj (Option.some.inj hstep)
      by_cases hopen : c = '('
      · exact ⟨depth, Or.inr (by simp [hopen])⟩
      · exact ⟨depth, Or.inl (by simp [hopen, Ne.symm hc])⟩
    · obtain ⟨-, rfl⟩ := Prod.mk.inj (Option.some.inj hstep)
      by_cases hopen : c = '('
      · exact ⟨depth, Or.inr (by simp [hopen])⟩
      · exact ⟨depth, Or.inl (by simp [hopen, Ne.symm hc])⟩

theorem commented_append (s rest : Text) : "(* ".toList ++ s ++ " *)".toList ++ rest =
    '(' :: '*' :: ' ' :: (s ++ ' ' :: '*' :: ')' :: rest) := by
  have hopen : "(* ".toList = ['(', '*', ' '] := by decide
  have hclose : " *)".toList = [' ', '*', ')'] := by decide
  simp [hopen, hclose]

/-- **Inside a comment nothing ends it.** -/
theorem Parts.leads_sunk {s : Text} {bs : List Text} (h : Parts s bs) (hbs : ∀ b ∈ bs, NoClose b)
    {m : Mode} (hm : Sunk m) : Leads m s Sunk := by
  induction h generalizing m with
  | code hstar _ => exact leads_sunk_of_not_mem hstar hm
  | str _ hstar => exact leads_sunk_of_not_mem (by simp [quoted, hstar]) hm
  | comment s =>
    obtain ⟨depth, hm⟩ := hm
    obtain ⟨depth', hle, -, hrun⟩ := comment_run (hbs s (List.mem_singleton_self s)) (depth + 1)
    refine Or.inr ⟨.comment (depth' - 1), [], ⟨_, Or.inl rfl⟩, fun rest => ?_⟩
    have hopen : step m '(' = some ([], .commentOpen depth) := by
      rcases hm with rfl | rfl <;> rfl
    rw [commented_append, lexFrom_silent hopen, lexFrom_silent (n := .comment (depth + 1)) rfl,
      lexFrom_silent (n := .comment (depth + 1)) rfl, hrun, if_neg (by omega)]
    exact Option.map_id'.symm
  | append _ _ ih ih' =>
    exact .append (ih (fun b hb => hbs b (List.mem_append_left _ hb)) hm)
      fun n hn => ih' (fun b hb => hbs b (List.mem_append_right _ hb)) hn

/-- In code, between the strings and comments. -/
def Awake : Mode → Prop
  | .gap | .opened | .word _ => True
  | _ => False

/-- What a fresh character starts is code, or a string. -/
theorem awake_fresh {c : Char} (hc : c ≠ '"') {tokens : List Token} {n : Mode}
    (h : fresh c = some (tokens, n)) : Awake n := by
  unfold fresh at h
  split_ifs at h <;>
  · obtain ⟨-, rfl⟩ := Prod.mk.inj (Option.some.inj h)
    trivial

/-- A character of code, after code. -/
theorem Awake.step {m n : Mode} (hm : Awake m) {c : Char} (hstar : c ≠ '*') (hquote : c ≠ '"')
    {tokens : List Token} (h : Terms.step m c = some (tokens, n)) : Awake n := by
  have hafter {token : Token} (h : after token c = some (tokens, n)) : Awake n := by
    obtain ⟨⟨tokens', n'⟩, hfresh, heq⟩ := Option.map_eq_some_iff.mp h
    obtain ⟨-, rfl⟩ := Prod.mk.inj heq
    exact awake_fresh hquote hfresh
  cases m with
  | gap => exact awake_fresh hquote h
  | opened =>
    rw [Terms.step, if_neg hstar] at h
    exact hafter h
  | word w =>
    rw [Terms.step] at h
    split at h
    · obtain ⟨-, rfl⟩ := Prod.mk.inj (Option.some.inj h)
      trivial
    · exact hafter h
  | _ => exact hm.elim

theorem Awake.leads {m : Mode} (hm : Awake m) {s : Text} (hstar : '*' ∉ s) (hquote : '"' ∉ s) :
    Leads m s Awake := by
  induction s generalizing m with
  | nil => exact .nil hm
  | cons c s ih =>
    obtain ⟨hc, hstar⟩ := not_or.mp (mt List.mem_cons.mpr hstar)
    obtain ⟨hc', hquote⟩ := not_or.mp (mt List.mem_cons.mpr hquote)
    exact .cons fun tokens n hstep =>
      ih (hm.step (Ne.symm hc) (Ne.symm hc') hstep) hstar hquote

/-- What follows code where a string or a parenthesis starts. -/
theorem Awake.step_eq {m : Mode} (hm : Awake m) {c : Char} {n : Mode}
    (hc : fresh c = some ([], n)) (hword : isWordChar c = false) (hstar : c ≠ '*') :
    ∃ tokens, Terms.step m c = some (tokens, n) := by
  cases m with
  | gap => exact ⟨[], hc⟩
  | opened => exact ⟨_, by rw [Terms.step, if_neg hstar, after, hc]; rfl⟩
  | word w =>
    have hnot : ¬isWordChar c = true := by simp [hword]
    exact ⟨_, by rw [Terms.step, if_neg hnot, after, hc]; rfl⟩
  | _ => exact hm.elim

/-- Code again, with plain comments only; or in a comment that was opened. -/
def Settles (bs : List Text) (m : Mode) : Prop :=
  (∀ b ∈ bs, isPlain b = true) ∧ Awake m ∨ (∃ b ∈ bs, isPlain b = false) ∧ Sunk m

/-- **A comment that opens another is never left.** -/
theorem Parts.leads {s : Text} {bs : List Text} (h : Parts s bs) (hbs : ∀ b ∈ bs, NoClose b)
    {m : Mode} (hm : Awake m) : Leads m s (Settles bs) := by
  induction h generalizing m with
  | code hstar hquote =>
    exact (hm.leads hstar hquote).mono fun n hn => Or.inl ⟨by simp, hn⟩
  | @str s hlit _ =>
    obtain ⟨tokens, hstep⟩ := hm.step_eq (c := '"') (n := .str []) rfl (by decide) (by decide)
    refine Or.inr ⟨.gap, tokens ++ [.str s], Or.inl ⟨by simp, trivial⟩,
      fun rest => ?_⟩
    have happend : quoted s ++ rest = '"' :: (s ++ '"' :: rest) := by simp [quoted]
    rw [happend, lexFrom, hstep, Option.bind_some, lexFrom_str [] hlit.1 hlit.2, Option.map_map]
    simp only [Function.comp_def, List.nil_append, List.append_assoc, List.singleton_append]
    rfl
  | comment s =>
    obtain ⟨tokens, hstep⟩ := hm.step_eq (c := '(') (n := .opened) rfl (by decide) (by decide)
    obtain ⟨depth, -, hplain, hrun⟩ := comment_run (hbs s (List.mem_singleton_self s)) 0
    have hread (rest : Text) : lexFrom m ("(* ".toList ++ s ++ " *)".toList ++ rest) =
        (lexFrom (if depth = 0 then .gap else .comment (depth - 1)) rest).map (tokens ++ ·) := by
      rw [commented_append, lexFrom, hstep, Option.bind_some,
        lexFrom_silent (n := .comment 0) rfl, lexFrom_silent (n := .comment 0) rfl, hrun]
    cases hb : isPlain s with
    | true =>
      refine Or.inr ⟨.gap, tokens, Or.inl ⟨fun b hmem => ?_, trivial⟩, fun rest => ?_⟩
      · rwa [List.mem_singleton.mp hmem]
      · rw [hread, if_pos (hplain.mp hb)]
    | false =>
      have hdepth : depth ≠ 0 := fun h0 => by
        rw [hplain.mpr h0] at hb
        cases hb
      refine Or.inr ⟨.comment (depth - 1), tokens,
        Or.inr ⟨⟨s, List.mem_singleton_self s, hb⟩, _, Or.inl rfl⟩, fun rest => ?_⟩
      rw [hread, if_neg hdepth]
  | append _ ht ih ih' =>
    refine .append (ih (fun b hb => hbs b (List.mem_append_left _ hb)) hm) fun n hn => ?_
    have hcs := fun b hb => hbs b (List.mem_append_right _ hb)
    rcases hn with ⟨hplain, hn⟩ | ⟨⟨b, hb, hopen⟩, hn⟩
    · refine (ih' hcs hn).mono fun n' hn' => ?_
      rcases hn' with ⟨hplain', hn'⟩ | ⟨⟨b, hb, hopen⟩, hn'⟩
      · refine Or.inl ⟨fun b hb => ?_, hn'⟩
        exact (List.mem_append.mp hb).elim (hplain b) (hplain' b)
      · exact Or.inr ⟨⟨b, List.mem_append_right _ hb, hopen⟩, hn'⟩
    · exact (ht.leads_sunk hcs hn).mono fun n' hn' =>
        Or.inr ⟨⟨b, List.mem_append_left _ hb, hopen⟩, hn'⟩

/-- Where there are tokens, every comment closes where it ends. -/
theorem Parts.isPlain_of_lex {s : Text} {bs : List Text} (h : Parts s bs)
    (hbs : ∀ b ∈ bs, NoClose b) {tokens : List Token} (hlex : lex s = some tokens) :
    ∀ b ∈ bs, isPlain b = true := by
  have hread : lexFrom .gap (s ++ []) = some tokens := by rwa [List.append_nil]
  rcases h.leads hbs (m := .gap) trivial with hnone | ⟨n, tokens', hn, hrun⟩
  · rw [hnone] at hread
    cases hread
  · rcases hn with ⟨hplain, -⟩ | ⟨-, depth, rfl | rfl⟩
    · exact hplain
    · rw [hrun] at hread
      cases hread
    · rw [hrun] at hread
      cases hread

/-! ## What the comments of a text must meet -/

/-- **A text of code, strings and comments** that has tokens only where `Q` holds. -/
def Remarks (s : Text) (Q : Prop) : Prop :=
  ∃ bs, Parts s bs ∧ (∀ b ∈ bs, NoClose b) ∧ ((∀ b ∈ bs, isPlain b = true) → Q)

/-- Code has no star and no quote. -/
def IsCode (s : Text) : Prop := '*' ∉ s ∧ '"' ∉ s

instance (s : Text) : Decidable (IsCode s) := inferInstanceAs (Decidable (_ ∧ _))

namespace Remarks

variable {s t c : Text} {Q R : Prop}

theorem of_lex (h : Remarks s Q) {tokens : List Token} (hlex : lex s = some tokens) : Q := by
  obtain ⟨bs, hparts, hbs, hQ⟩ := h
  exact hQ (hparts.isPlain_of_lex hbs hlex)

theorem mono (h : Remarks s Q) (hQ : Q → R) : Remarks s R :=
  let ⟨bs, hparts, hbs, hgives⟩ := h
  ⟨bs, hparts, hbs, fun hplain => hQ (hgives hplain)⟩

theorem code (h : IsCode s) : Remarks s True :=
  ⟨[], .code h.1 h.2, by simp, fun _ => trivial⟩

theorem str (h : IsLiteral s) (hstar : '*' ∉ s) : Remarks (quoted s) True :=
  ⟨[], .str h hstar, by simp, fun _ => trivial⟩

theorem comment (h : NoClose s) :
    Remarks ("(* ".toList ++ s ++ " *)".toList) (isPlain s = true) :=
  ⟨[s], .comment s, by simpa using h, fun hplain => hplain s (List.mem_singleton_self s)⟩

theorem append (hs : Remarks s Q) (ht : Remarks t R) : Remarks (s ++ t) (Q ∧ R) := by
  obtain ⟨bs, hparts, hbs, hQ⟩ := hs
  obtain ⟨cs, hparts', hcs, hR⟩ := ht
  refine ⟨bs ++ cs, hparts.append hparts', fun b hb => ?_, fun hplain => ⟨?_, ?_⟩⟩
  · exact (List.mem_append.mp hb).elim (hbs b) (hcs b)
  · exact hQ fun b hb => hplain b (List.mem_append_left _ hb)
  · exact hR fun b hb => hplain b (List.mem_append_right _ hb)

/-- Code before a text. -/
theorem before (hc : IsCode c) (h : Remarks s Q) : Remarks (c ++ s) Q :=
  ((code hc).append h).mono And.right

theorem cons {a : Char} (ha : IsCode [a]) (h : Remarks s Q) : Remarks (a :: s) Q :=
  h.before ha

/-- Code after a text. -/
theorem behind (h : Remarks s Q) (hc : IsCode c) : Remarks (s ++ c) Q :=
  (h.append (code hc)).mono And.left

theorem paren (h : Remarks s Q) : Remarks (paren s) Q :=
  (h.cons (by decide)).behind (by decide)

theorem bracketed (h : Remarks s Q) : Remarks (bracketed s) Q :=
  (h.cons (by decide)).behind (by decide)

theorem braced (h : Remarks s Q) : Remarks (braced s) Q :=
  (h.cons (by decide)).behind (by decide)

/-- A text and, after a space, others. -/
theorem spaced {l : List Text} (hs : Remarks s Q) (ht : Remarks (Text.unwords (t :: l)) R) :
    Remarks (Text.unwords (s :: t :: l)) (Q ∧ R) := by
  rw [Text.unwords_cons_cons]
  exact hs.append (ht.cons (by decide))

theorem last (hs : Remarks s Q) : Remarks (Text.unwords [s]) Q := by
  rwa [Text.unwords_singleton]

/-- Code and, after a space, a text with others. -/
theorem apply {l : List Text} (hc : IsCode c) (ht : Remarks (Text.unwords (t :: l)) Q) :
    Remarks (Text.unwords (c :: t :: l)) Q :=
  ((code hc).spaced ht).mono And.right

/-- The items of a list. -/
theorem join {sep : Text} (hsep : IsCode sep) :
    ∀ {l : List Text}, (∀ s ∈ l, Remarks s True) → Remarks (sep.intercalate l) True
  | [], _ => by
    rw [List.intercalate_nil]
    exact code (by decide)
  | [s], h => by
    rw [List.intercalate_singleton]
    exact h s (List.mem_singleton_self s)
  | s :: t :: l, h => by
    rw [List.intercalate_cons_cons]
    obtain ⟨hs, hl⟩ := List.forall_mem_cons.mp h
    exact ((hs.behind hsep).append (join hsep hl)).mono And.left

end Remarks

/-! ## Texts inside comments -/

theorem noClose_of_not_mem {s : Text} (h : '*' ∉ s) : NoClose s := by
  induction s with
  | nil => exact .nil
  | cons c s ih =>
    obtain ⟨hc, hs⟩ := not_or.mp (mt List.mem_cons.mpr h)
    cases s with
    | nil => exact .singleton _
    | cons d s => exact List.isChain_cons_cons.mpr ⟨fun hstar => hc hstar.1.symm, ih hs⟩

theorem noClose_append {s t : Text} (hs : NoClose s) (ht : NoClose t)
    (h : s.getLast? ≠ some '*' ∨ t.head? ≠ some ')') : NoClose (s ++ t) := by
  refine List.isChain_append.mpr ⟨hs, ht, fun a ha b hb hab => ?_⟩
  rcases h with hlast | hhead
  · exact hlast (hab.1 ▸ ha)
  · exact hhead (hab.2 ▸ hb)

/-- **A text that closes no comment** whatever stands around it. -/
structure Tame (s : Text) : Prop where
  noClose : NoClose s
  head : s.head? ≠ some ')'
  last : s.getLast? ≠ some '*'
  ne_nil : s ≠ []

namespace Tame

variable {s t : Text}

theorem of_not_mem (hne : s ≠ []) (hstar : '*' ∉ s) (hhead : s.head? ≠ some ')') : Tame s :=
  ⟨noClose_of_not_mem hstar, hhead, fun hlast => hstar (List.mem_of_getLast? hlast), hne⟩

/-- A text that may be nothing, and neither closes a comment nor ends in a star. -/
theorem append_of_noClose (hs : Tame s) (ht : NoClose t) (hlast : t.getLast? ≠ some '*') :
    Tame (s ++ t) := by
  refine ⟨noClose_append hs.noClose ht (Or.inl hs.last), ?_, ?_, by simp [hs.ne_nil]⟩
  · rw [List.head?_append_of_ne_nil _ hs.ne_nil]
    exact hs.head
  · intro h
    rw [List.getLast?_append, Option.or_eq_some_iff] at h
    exact h.elim hlast fun h => hs.last h.2

theorem append (hs : Tame s) (ht : Tame t) : Tame (s ++ t) :=
  hs.append_of_noClose ht.noClose ht.last

/-- Star-free text after a tame one. -/
theorem append_of_not_mem (hs : Tame s) (ht : '*' ∉ t) : Tame (s ++ t) :=
  hs.append_of_noClose (noClose_of_not_mem ht) fun h => ht (List.mem_of_getLast? h)

/-- A character before a tame text. -/
theorem cons {c : Char} (hc : c ≠ ')') (hs : Tame s) : Tame (c :: s) := by
  obtain ⟨d, s, rfl⟩ := List.exists_cons_of_ne_nil hs.ne_nil
  refine ⟨List.isChain_cons_cons.mpr ⟨fun h => ?_, hs.noClose⟩, ?_, ?_, List.cons_ne_nil _ _⟩
  · exact hs.head (congrArg some h.2)
  · exact fun h => hc (Option.some.inj h)
  · rw [List.getLast?_cons_cons]
    exact hs.last

theorem paren (hs : Tame s) : Tame (Terms.paren s) :=
  (hs.cons (c := '(') (by decide)).append_of_not_mem (by decide)

theorem unwords {l : List Text} (hs : Tame s) (ht : Tame (Text.unwords (t :: l))) :
    Tame (Text.unwords (s :: t :: l)) := by
  rw [Text.unwords_cons_cons]
  exact hs.append (ht.cons (by decide))

/-- Tame items are nothing, or tame. -/
theorem join {sep : Text} (hsep : '*' ∉ sep) :
    ∀ {l : List Text}, (∀ s ∈ l, Tame s) → l ≠ [] → Tame (sep.intercalate l)
  | [], _, hne => absurd rfl hne
  | [s], h, _ => by
    rw [List.intercalate_singleton]
    exact h s (List.mem_singleton_self s)
  | s :: t :: l, h, _ => by
    rw [List.intercalate_cons_cons]
    obtain ⟨hs, hl⟩ := List.forall_mem_cons.mp h
    exact (hs.append_of_not_mem hsep).append (join hsep hl (List.cons_ne_nil t l))

end Tame

end Terms
