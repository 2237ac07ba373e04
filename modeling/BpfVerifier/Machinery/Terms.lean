import BpfVerifier.Machinery.Words

/-!
# Machinery/Terms — a notation of applications, read back

Terms are written as applications, with parentheses, strings, pairs, lists and records; white space
and nested comments stand between the words.  `lex` takes a text apart into tokens one character at
a time and `parse` the tokens into a term with a stack of open brackets.  `Reads s ts` says that a
text is read as the terms of an application; there is a rule for each way texts are put together.
-/

namespace Terms

/-! ## Tokens -/

inductive Token where
  | word (w : Text)
  | str (s : Text)
  | sym (c : Char)
  deriving DecidableEq, Repr

/-- The characters of names and numbers; a sign belongs to its number. -/
def isWordChar (c : Char) : Bool := c.isAlphanum || c = '_' || c = '-' || c = '.'

def isGap (c : Char) : Bool := c = ' ' || c = '\n' || c = '\t' || c = '\r'

/-- The symbols, but for the parenthesis that may start a comment. -/
def isSymbol (c : Char) : Bool := c ∈ [')', '[', ']', '{', '}', ';', ',', '=', ':']

/-- What the characters read so far are a part of. -/
inductive Mode where
  | gap
  | opened
  | word (w : Text)
  | str (s : Text)
  | comment (depth : ℕ)
  | commentOpen (depth : ℕ)
  | commentStar (depth : ℕ)
  deriving DecidableEq, Repr

/-- A character that starts something. -/
def fresh (c : Char) : Option (List Token × Mode) :=
  if isGap c then some ([], .gap)
  else if c = '(' then some ([], .opened)
  else if c = '"' then some ([], .str [])
  else if isWordChar c then some ([], .word [c])
  else if isSymbol c then some ([.sym c], .gap)
  else none

/-- A character that starts something, after a token. -/
def after (token : Token) (c : Char) : Option (List Token × Mode) :=
  (fresh c).map fun r => (token :: r.1, r.2)

/-- One character. -/
def step : Mode → Char → Option (List Token × Mode)
  | .gap, c => fresh c
  | .opened, c => if c = '*' then some ([], .comment 0) else after (.sym '(') c
  | .word w, c => if isWordChar c then some ([], .word (w ++ [c])) else after (.word w) c
  | .str s, c =>
    if c = '"' then some ([.str s], .gap)
    else if c = '\\' then none
    else some ([], .str (s ++ [c]))
  | .comment depth, c =>
    some ([], if c = '(' then .commentOpen depth else if c = '*' then .commentStar depth
      else .comment depth)
  | .commentOpen depth, c =>
    some ([], if c = '*' then .comment (depth + 1) else if c = '(' then .commentOpen depth
      else .comment depth)
  | .commentStar depth, c =>
    some ([], if c = ')' then (if depth = 0 then .gap else .comment (depth - 1))
      else if c = '*' then .commentStar depth
      else if c = '(' then .commentOpen depth
      else .comment depth)

/-- The end of the text. -/
def finish : Mode → Option (List Token)
  | .gap => some []
  | .opened => some [.sym '(']
  | .word w => some [.word w]
  | _ => none

def lexFrom : Mode → Text → Option (List Token)
  | m, [] => finish m
  | m, c :: s => (step m c).bind fun r => (lexFrom r.2 s).map (r.1 ++ ·)

/-- The tokens of a text. -/
def lex (s : Text) : Option (List Token) := lexFrom .gap s

example : lex "Seq (Nop) (* a (* b *) c *) [\"x\"; -1]".toList =
    some [.word "Seq".toList, .sym '(', .word "Nop".toList, .sym ')', .sym '[', .str "x".toList,
      .sym ';', .word "-1".toList, .sym ']'] := by decide +kernel

/-! ## Terms -/

inductive Term where
  | word (w : Text)
  | str (s : Text)
  | unit
  | app (f a : Term)
  | pair (a b : Term)
  | nil
  | cons (a l : Term)
  | field (label : Text) (value : Term)
  | record (fields : Term)
  deriving DecidableEq, Repr

/-- What is open. -/
inductive Bracket where
  | root
  | paren
  | bracket
  | brace
  deriving DecidableEq, Repr

/-- An open bracket, with the items finished in it, and the label and the words of the next. -/
structure Frame where
  kind : Bracket
  items : List Term
  label : Option Text
  atoms : List Term
  deriving DecidableEq, Repr

/-- A term applied to terms. -/
def group : List Term → Option Term
  | [] => none
  | f :: args => some (args.foldl .app f)

def Term.list (ts : List Term) : Term := ts.foldr .cons .nil

@[simp] theorem Term.list_nil : Term.list [] = .nil := rfl

@[simp] theorem Term.list_cons (t : Term) (ts : List Term) :
    Term.list (t :: ts) = .cons t (.list ts) := rfl

namespace Frame

def start (kind : Bracket) : Frame := ⟨kind, [], none, []⟩

def push (f : Frame) (t : Term) : Frame := { f with atoms := f.atoms ++ [t] }

/-- The next item. -/
def item (f : Frame) : Option Term :=
  (group f.atoms).map fun t =>
    match f.label with
    | none => t
    | some label => .field label t

/-- A separator ends an item. -/
def separate (f : Frame) : Option Frame :=
  f.item.map fun t => ⟨f.kind, f.items ++ [t], none, []⟩

/-- The items; a separator may stand after the last. -/
def allItems (f : Frame) : Option (List Term) :=
  if f.label = none ∧ f.atoms = [] then some f.items else f.item.map (f.items ++ [·])

/-- A closing parenthesis. -/
def closeParen (f : Frame) : Option Term :=
  match f.items with
  | [] => if f.atoms = [] then some .unit else f.item
  | [a] => f.item.map (.pair a)
  | _ => none

end Frame

/-- A bracket that is closed is a term of what is open around it. -/
def closed (t : Option Term) : List Frame → Option (List Frame)
  | [] => none
  | f :: stack => t.map fun t => f.push t :: stack

/-- A symbol, with a bracket open. -/
def symbol (f : Frame) (stack : List Frame) (c : Char) : Option (List Frame) :=
  if c = '(' then some (.start .paren :: f :: stack)
  else if c = '[' then some (.start .bracket :: f :: stack)
  else if c = '{' then some (.start .brace :: f :: stack)
  else if c = ')' ∧ f.kind = .paren then closed f.closeParen stack
  else if c = ']' ∧ f.kind = .bracket then closed (f.allItems.map Term.list) stack
  else if c = '}' ∧ f.kind = .brace then
    closed (f.allItems.map fun ts => .record (Term.list ts)) stack
  else if (c = ':' ∨ c = '=') ∧ f.kind = .root then f.separate.map (· :: stack)
  else if c = ',' ∧ f.kind = .paren then f.separate.map (· :: stack)
  else if c = ';' ∧ (f.kind = .bracket ∨ f.kind = .brace) then f.separate.map (· :: stack)
  else if c = '=' ∧ f.kind = .brace then
    match f.label, f.atoms with
    | none, [.word label] => some ({ f with label := some label, atoms := [] } :: stack)
    | _, _ => none
  else none

/-- One token. -/
def parseStep : List Frame → Token → Option (List Frame)
  | [], _ => none
  | f :: stack, .word w => some (f.push (.word w) :: stack)
  | f :: stack, .str s => some (f.push (.str s) :: stack)
  | f :: stack, .sym c => symbol f stack c

def parseFrom : List Frame → List Token → Option (List Frame)
  | stack, [] => some stack
  | stack, token :: tokens => (parseStep stack token).bind fun stack => parseFrom stack tokens

/-- What a colon and an equals sign divide some tokens into. -/
def parse (tokens : List Token) : Option (List Term) :=
  (parseFrom [.start .root] tokens).bind fun stack =>
    match stack with
    | [f] => f.item.map (f.items ++ [·])
    | _ => none

/-- The term of a text. -/
def read (s : Text) : Option Term :=
  ((lex s).bind parse).bind fun ts =>
    match ts with
    | [t] => some t
    | _ => none

example : read "F (G \"x\") [1; 2] ()".toList = some
    (.app (.app (.app (.word "F".toList) (.app (.word "G".toList) (.str "x".toList)))
      (.list [.word "1".toList, .word "2".toList])) .unit) := by decide +kernel

/-! ## Modules -/

/-- The words that start a declaration. -/
def isKeyword (w : Text) : Bool :=
  w ∈ [['m', 'o', 'd', 'u', 'l', 'e'], ['o', 'p', 'e', 'n'], ['l', 'e', 't']]

/-- Tokens up to the first keyword, and those after each keyword. -/
def chunks : List Token → List Token × List (Text × List Token)
  | [] => ([], [])
  | .word w :: tokens =>
    if isKeyword w then ([], (w, (chunks tokens).1) :: (chunks tokens).2)
    else (.word w :: (chunks tokens).1, (chunks tokens).2)
  | token :: tokens => (token :: (chunks tokens).1, (chunks tokens).2)

/-- A declaration: a keyword and the terms after it. -/
abbrev Decl := Text × List Term

/-- The declarations of a module. -/
def readModule (s : Text) : Option (List Decl) :=
  (lex s).bind fun tokens =>
    if (chunks tokens).1 = [] then
      (chunks tokens).2.mapM fun chunk => (parse chunk.2).map fun ts => (chunk.1, ts)
    else none

example : readModule "module M (* x *) let a : T = F b".toList = some
    [("module".toList, [.word "M".toList]),
      ("let".toList, [.word "a".toList, .word "T".toList,
        .app (.word "F".toList) (.word "b".toList)])] := by decide +kernel

/-! ## What the tokens of a text are -/

/-- The text does not go on with a word, and an open parenthesis before it starts no comment. -/
def Ends (rest : Text) : Prop := ∀ c ∈ rest.head?, isWordChar c = false ∧ c ≠ '*'

theorem ends_nil : Ends [] := fun c hc => by cases hc

theorem ends_cons {c : Char} (hc : isWordChar c = false ∧ c ≠ '*') (rest : Text) :
    Ends (c :: rest) := by
  rintro d hd
  obtain rfl : c = d := by simpa using hd
  exact hc

theorem ends_append {s rest : Text} (hs : Ends s) (hrest : Ends rest) : Ends (s ++ rest) := by
  cases s with
  | nil => exact hrest
  | cons c s => exact hs

/-- **A text is some tokens**, whatever follows that ends a word. -/
def Lexes (s : Text) (tokens : List Token) : Prop :=
  ∀ rest, Ends rest → lex (s ++ rest) = (lex rest).map (tokens ++ ·)

/-- A character that ends no token. -/
theorem lexFrom_silent {m n : Mode} {c : Char} (h : step m c = some ([], n)) (s : Text) :
    lexFrom m (c :: s) = lexFrom n s := by
  rw [lexFrom, h]
  exact Option.map_id'

theorem lex_cons (c : Char) (s : Text) :
    lex (c :: s) = (fresh c).bind fun r => (lexFrom r.2 s).map (r.1 ++ ·) := rfl

theorem lex_gap {c : Char} (hc : isGap c = true) (s : Text) : lex (c :: s) = lex s := by
  rw [lex_cons, fresh, if_pos hc]
  exact Option.map_id'

theorem lex_gaps {g : Text} (hg : g.all isGap = true) (s : Text) : lex (g ++ s) = lex s := by
  induction g with
  | nil => rfl
  | cons c g ih =>
    obtain ⟨hc, hg⟩ := Bool.and_eq_true_iff.mp hg
    rw [List.cons_append, lex_gap hc, ih hg]

theorem fresh_symbol {c : Char} (hc : isSymbol c = true) : fresh c = some ([.sym c], .gap) := by
  have hall : [')', '[', ']', '{', '}', ';', ',', '=', ':'].all
      (fun c => fresh c = some ([.sym c], .gap)) = true := by decide +kernel
  exact of_decide_eq_true (List.all_eq_true.mp hall c (of_decide_eq_true hc))

theorem lex_symbol {c : Char} (hc : isSymbol c = true) (s : Text) :
    lex (c :: s) = (lex s).map (.sym c :: ·) := by
  rw [lex_cons, fresh_symbol hc]
  rfl

/-- What follows a token that was not ended yet. -/
theorem bind_after (token : Token) (c : Char) (s : Text) :
    ((after token c).bind fun r => (lexFrom r.2 s).map (r.1 ++ ·)) =
      (lex (c :: s)).map (token :: ·) := by
  rw [after, lex_cons, Option.bind_map, Option.map_bind]
  simp only [Function.comp_def, Option.map_map, List.cons_append]

theorem lex_open {s : Text} (hs : s.head? ≠ some '*') :
    lex ('(' :: s) = (lex s).map (.sym '(' :: ·) := by
  have hopen : lex ('(' :: s) = lexFrom .opened s := Option.map_id'
  rw [hopen]
  cases s with
  | nil => rfl
  | cons c s =>
    have hc : c ≠ '*' := fun h => hs (congrArg some h)
    rw [lexFrom, step, if_neg hc]
    exact bind_after (.sym '(') c s

/-- A string goes on to its closing quote. -/
theorem lexFrom_str (p : Text) {s : Text} (hquote : '"' ∉ s) (hslash : '\\' ∉ s) (rest : Text) :
    lexFrom (.str p) (s ++ '"' :: rest) = (lex rest).map (.str (p ++ s) :: ·) := by
  induction s generalizing p with
  | nil =>
    rw [List.append_nil]
    rfl
  | cons c s ih =>
    obtain ⟨hc, hquote⟩ := not_or.mp (mt List.mem_cons.mpr hquote)
    obtain ⟨hc', hslash⟩ := not_or.mp (mt List.mem_cons.mpr hslash)
    have hnext := ih (p ++ [c]) hquote hslash
    rw [List.append_assoc] at hnext
    rw [List.cons_append, lexFrom, step, if_neg (Ne.symm hc), if_neg (Ne.symm hc')]
    exact Option.map_id'.trans hnext

/-- A word goes on to its last character. -/
theorem lexFrom_word (w : Text) {s : Text} (hs : s.all isWordChar = true) {rest : Text}
    (hrest : Ends rest) :
    lexFrom (.word w) (s ++ rest) = (lex rest).map (.word (w ++ s) :: ·) := by
  induction s generalizing w with
  | nil =>
    cases rest with
    | nil => simp [lexFrom, finish, lex]
    | cons c rest =>
      have hc : ¬isWordChar c = true := by simp [(hrest c rfl).1]
      rw [List.nil_append, List.append_nil, lexFrom, step, if_neg hc]
      exact bind_after (.word w) c rest
  | cons c s ih =>
    obtain ⟨hc, hs⟩ := Bool.and_eq_true_iff.mp hs
    have hnext := ih (w ++ [c]) hs
    rw [List.append_assoc] at hnext
    have hstep : step (.word w) c = some ([], .word (w ++ [c])) := if_pos hc
    rw [List.cons_append, lexFrom_silent hstep, hnext]
    rfl

theorem not_special_of_isWordChar {c : Char} (hc : isWordChar c = true) :
    isGap c = false ∧ c ≠ '(' ∧ c ≠ '"' := by
  refine ⟨?_, ?_, ?_⟩
  · by_contra hgap
    simp only [isGap, Bool.not_eq_false, Bool.or_eq_true, decide_eq_true_eq] at hgap
    rcases hgap with ((rfl | rfl) | rfl) | rfl <;> exact absurd hc (by decide)
  · rintro rfl
    exact absurd hc (by decide)
  · rintro rfl
    exact absurd hc (by decide)

namespace Lexes

variable {s t g : Text} {a b : List Token}

theorem nil : Lexes [] [] := fun rest _ => by simp

/-- **A word is one token.** -/
theorem word {w : Text} (hne : w ≠ []) (hw : w.all isWordChar = true) : Lexes w [.word w] := by
  intro rest hrest
  obtain ⟨c, w, rfl⟩ := List.exists_cons_of_ne_nil hne
  obtain ⟨hc, hw⟩ := Bool.and_eq_true_iff.mp hw
  obtain ⟨hgap, hopen, hquote⟩ := not_special_of_isWordChar hc
  have hfresh : fresh c = some ([], .word [c]) := by
    rw [fresh, if_neg (by simp [hgap]), if_neg hopen, if_neg hquote, if_pos hc]
  rw [List.cons_append, lex_cons, hfresh]
  exact Option.map_id'.trans (lexFrom_word [c] hw hrest)

theorem append (h : Lexes s a) (h' : Lexes t b) (ht : Ends t) : Lexes (s ++ t) (a ++ b) := by
  intro rest hrest
  rw [List.append_assoc, h _ (ends_append ht hrest), h' rest hrest, Option.map_map]
  simp only [Function.comp_def, List.append_assoc]

/-- White space before a text. -/
theorem gap (h : Lexes s a) (hg : g.all isGap = true) : Lexes (g ++ s) a := by
  intro rest hrest
  rw [List.append_assoc, lex_gaps hg, h rest hrest]

/-- White space after a text. -/
theorem trail (h : Lexes s a) (hg : g.all isGap = true) : Lexes (s ++ g) a := by
  have hgap : Lexes g [] := by
    intro rest hrest
    rw [lex_gaps hg]
    simp
  have hends : Ends g := by
    intro c hc
    have hne : isGap c = true := List.all_eq_true.mp hg c (List.mem_of_mem_head? hc)
    refine ⟨?_, ?_⟩
    · by_contra hword
      have hnot := (not_special_of_isWordChar (Bool.not_eq_false _ ▸ hword)).1
      rw [hne] at hnot
      cases hnot
    · rintro rfl
      exact absurd hne (by decide)
  simpa using h.append hgap hends

theorem symbol {c : Char} (hc : isSymbol c = true) : Lexes [c] [.sym c] :=
  fun rest _ => lex_symbol hc rest

/-- What a symbol encloses. -/
theorem enclosed {left right : Char} (hleft : isSymbol left = true) (hright : isSymbol right = true)
    (hends : isWordChar right = false ∧ right ≠ '*') (h : Lexes s a) :
    Lexes (left :: s ++ [right]) (.sym left :: a ++ [.sym right]) := by
  intro rest hrest
  have happend : left :: s ++ [right] ++ rest = left :: (s ++ right :: rest) := by simp
  rw [happend, lex_symbol hleft, h _ (ends_cons hends rest), lex_symbol hright, Option.map_map,
    Option.map_map]
  simp [Function.comp_def]

/-- **A parenthesis** before a text that does not make it a comment. -/
theorem paren (h : Lexes s a) (hs : s.head? ≠ some '*') :
    Lexes ('(' :: s ++ [')']) (.sym '(' :: a ++ [.sym ')']) := by
  intro rest hrest
  have hclose : Ends (')' :: rest) := ends_cons (by decide) rest
  have hhead : (s ++ ')' :: rest).head? ≠ some '*' := by
    cases s with
    | nil => exact fun h => absurd (Option.some.inj h) (by decide)
    | cons c s => exact hs
  have happend : '(' :: s ++ [')'] ++ rest = '(' :: (s ++ ')' :: rest) := by simp
  rw [happend, lex_open hhead, h _ hclose, lex_symbol (by decide), Option.map_map, Option.map_map]
  simp [Function.comp_def]

/-- **A string is one token.** -/
theorem str (hquote : '"' ∉ s) (hslash : '\\' ∉ s) : Lexes ('"' :: s ++ ['"']) [.str s] := by
  intro rest _
  have happend : '"' :: s ++ ['"'] ++ rest = '"' :: (s ++ '"' :: rest) := by simp
  have hopen : lex ('"' :: (s ++ '"' :: rest)) = lexFrom (.str []) (s ++ '"' :: rest) :=
    Option.map_id'
  rw [happend, hopen, lexFrom_str [] hquote hslash]
  rfl

end Lexes

/-! ## Comments -/

/-- A text that neither opens nor closes a comment. -/
def isPlain : Text → Bool
  | [] => true
  | c :: s =>
    decide (¬(c = '(' ∧ s.head? = some '*') ∧ ¬(c = '*' ∧ s.head? = some ')')) && isPlain s

theorem isPlain_cons {c : Char} {s : Text} (h : isPlain (c :: s) = true) :
    isPlain s = true ∧ (c = '(' → s.head? ≠ some '*') ∧ (c = '*' → s.head? ≠ some ')') := by
  obtain ⟨hc, hs⟩ := Bool.and_eq_true_iff.mp h
  obtain ⟨hopen, hclose⟩ := of_decide_eq_true hc
  exact ⟨hs, fun h h' => hopen ⟨h, h'⟩, fun h h' => hclose ⟨h, h'⟩⟩

/-- In the outermost comment, after a character. -/
def commentAfter (c : Char) : Mode :=
  if c = '(' then .commentOpen 0 else if c = '*' then .commentStar 0 else .comment 0

theorem step_commentAfter {p c : Char} (hopen : p = '(' → c ≠ '*') (hclose : p = '*' → c ≠ ')') :
    step (commentAfter p) c = some ([], commentAfter c) := by
  unfold commentAfter
  by_cases h : p = '('
  · simp only [h, if_true, step, hopen h, if_false]
  · by_cases h' : p = '*'
    · rw [if_neg h, if_pos h', step, if_neg (hclose h')]
      by_cases hc : c = '('
      · simp [hc]
      · simp [hc]
    · simp only [h, h', if_false, step]

/-- A comment goes on to where it is closed. -/
theorem lexFrom_comment (p : Char) {s : Text} (hs : isPlain (p :: s) = true) (rest : Text) :
    lexFrom (commentAfter p) (s ++ ' ' :: '*' :: ')' :: rest) = lex rest := by
  induction s generalizing p with
  | nil =>
    have hspace : step (commentAfter p) ' ' = some ([], commentAfter ' ') :=
      step_commentAfter (fun _ => by decide) (fun _ => by decide)
    rw [List.nil_append, lexFrom_silent hspace, lexFrom_silent (n := .commentStar 0) rfl,
      lexFrom_silent (n := .gap) rfl]
    rfl
  | cons c s ih =>
    obtain ⟨hrest, hopen, hclose⟩ := isPlain_cons hs
    have hstep : step (commentAfter p) c = some ([], commentAfter c) :=
      step_commentAfter (fun hp hc => hopen hp (congrArg some hc))
        (fun hp hc => hclose hp (congrArg some hc))
    rw [List.cons_append, lexFrom_silent hstep, ih c hrest]

/-- **A comment is no token.** -/
theorem Lexes.comment {s : Text} (hs : isPlain s = true) :
    Lexes ("(* ".toList ++ s ++ " *)".toList) [] := by
  intro rest _
  have hspace : isPlain (' ' :: s) = true := by
    cases s <;> exact hs
  have happend : "(* ".toList ++ s ++ " *)".toList ++ rest =
      '(' :: '*' :: ' ' :: (s ++ ' ' :: '*' :: ')' :: rest) := by
    have hopen : "(* ".toList = ['(', '*', ' '] := by decide
    have hclose : " *)".toList = [' ', '*', ')'] := by decide
    simp [hopen, hclose]
  rw [happend, lex, lexFrom_silent (n := .opened) rfl, lexFrom_silent (n := .comment 0) rfl,
    lexFrom_silent (n := .comment 0) rfl]
  exact (lexFrom_comment ' ' hspace rest).trans Option.map_id'.symm

/-! ## The terms that tokens are -/

theorem parseFrom_cons {stack stack' : List Frame} {token : Token} (tokens : List Token)
    (h : parseStep stack token = some stack') :
    parseFrom stack (token :: tokens) = parseFrom stack' tokens := by
  rw [parseFrom, h, Option.bind_some]

theorem parseFrom_append {stack stack' : List Frame} {a : List Token} (b : List Token)
    (h : parseFrom stack a = some stack') : parseFrom stack (a ++ b) = parseFrom stack' b := by
  induction a generalizing stack with
  | nil =>
    obtain rfl := Option.some.inj h
    rfl
  | cons token a ih =>
    obtain ⟨next, hstep, hrest⟩ := Option.bind_eq_some_iff.mp h
    rw [List.cons_append, parseFrom_cons _ hstep, ih hrest]

/-- **Some tokens add terms** to what is open. -/
def Pushes (tokens : List Token) (ts : List Term) : Prop :=
  ∀ f stack, parseFrom (f :: stack) tokens = some ({ f with atoms := f.atoms ++ ts } :: stack)

/-- Some tokens make up the next item of an open bracket. -/
def MakesItem (kind : Bracket) (tokens : List Token) (t : Term) : Prop :=
  ∀ items stack, ∃ f : Frame, f.kind = kind ∧ f.items = items ∧ f.item = some t ∧
    parseFrom (⟨kind, items, none, []⟩ :: stack) tokens = some (f :: stack)

/-- Some tokens make up items of an open bracket, which may be closed after them. -/
def MakesItems (kind : Bracket) (tokens : List Token) (ts : List Term) : Prop :=
  ∀ items stack, ∃ f : Frame, f.kind = kind ∧ f.allItems = some (items ++ ts) ∧
    parseFrom (⟨kind, items, none, []⟩ :: stack) tokens = some (f :: stack)

/-- The term in parentheses, which is the unit if there is none. -/
def grouped (ts : List Term) : Term := (group ts).getD .unit

theorem group_eq_grouped {ts : List Term} (h : ts ≠ []) : group ts = some (grouped ts) := by
  obtain ⟨f, args, rfl⟩ := List.exists_cons_of_ne_nil h
  rfl

section

variable {a b : List Token} {ts us : List Term} {t u : Term} {kind : Bracket}

/-! ### Items -/

theorem Pushes.makesItem (h : Pushes a ts) (hne : ts ≠ []) : MakesItem kind a (grouped ts) := by
  intro items stack
  refine ⟨⟨kind, items, none, ts⟩, rfl, rfl, ?_, h _ stack⟩
  rw [Frame.item, group_eq_grouped hne]
  rfl

theorem Pushes.makesField (h : Pushes a ts) (hne : ts ≠ []) (label : Text) :
    MakesItem .brace (.word label :: .sym '=' :: a) (.field label (grouped ts)) := by
  intro items stack
  refine ⟨⟨.brace, items, some label, ts⟩, rfl, rfl, ?_, h ⟨.brace, items, some label, []⟩ stack⟩
  rw [Frame.item, group_eq_grouped hne]
  rfl

theorem atoms_ne_nil_of_item {f : Frame} (h : f.item = some t) : f.atoms ≠ [] := by
  intro hnil
  rw [Frame.item, hnil] at h
  cases h

theorem MakesItem.items (h : MakesItem kind a t) : MakesItems kind a [t] := by
  intro items stack
  obtain ⟨f, hkind, hitems, hitem, hrun⟩ := h items stack
  refine ⟨f, hkind, ?_, hrun⟩
  rw [Frame.allItems, if_neg fun hand => atoms_ne_nil_of_item hitem hand.2, hitem, hitems]
  rfl

theorem MakesItems.nil : MakesItems kind [] [] := by
  intro items stack
  refine ⟨⟨kind, items, none, []⟩, rfl, ?_, rfl⟩
  rw [List.append_nil]
  exact if_pos ⟨rfl, rfl⟩

/-- **A separator** stands between items. -/
theorem MakesItems.cons (hkind : kind = .bracket ∨ kind = .brace) (h : MakesItem kind a t)
    (h' : MakesItems kind b ts) : MakesItems kind (a ++ .sym ';' :: b) (t :: ts) := by
  intro items stack
  obtain ⟨f, rfl, hitems, hitem, hrun⟩ := h items stack
  obtain ⟨f', hf', hall, hrun'⟩ := h' (items ++ [t]) stack
  have hsep : parseStep (f :: stack) (.sym ';') =
      some (⟨f.kind, items ++ [t], none, []⟩ :: stack) := by
    rcases hkind with h | h <;> simp [parseStep, symbol, h, Frame.separate, hitem, hitems]
  refine ⟨f', hf', by rw [hall, List.append_assoc]; rfl, ?_⟩
  rw [parseFrom_append _ hrun, parseFrom_cons _ hsep, hrun']

/-! ### Brackets -/

/-- What is between brackets, and what it is when they are closed. -/
theorem pushes_enclosed {left right : Char}
    (hopen : ∀ g stack, parseStep (g :: stack) (.sym left) = some (.start kind :: g :: stack))
    (hrun : ∀ g stack, ∃ f, parseFrom (.start kind :: g :: stack) a = some (f :: g :: stack) ∧
      parseStep (f :: g :: stack) (.sym right) = some (g.push t :: stack)) :
    Pushes (.sym left :: a ++ [.sym right]) [t] := by
  intro g stack
  obtain ⟨f, hrun, hclose⟩ := hrun g stack
  rw [List.cons_append, parseFrom_cons _ (hopen g stack), parseFrom_append _ hrun,
    parseFrom_cons _ hclose]
  rfl

namespace Pushes

theorem nil : Pushes [] [] := fun f stack => by simp [parseFrom]

theorem word (w : Text) : Pushes [.word w] [.word w] := fun _ _ => rfl

theorem str (s : Text) : Pushes [.str s] [.str s] := fun _ _ => rfl

theorem append (h : Pushes a ts) (h' : Pushes b us) : Pushes (a ++ b) (ts ++ us) := by
  intro f stack
  rw [parseFrom_append _ (h f stack), ← List.append_assoc]
  exact h' { f with atoms := f.atoms ++ ts } stack

/-- **Parentheses** are around one term, or the unit. -/
theorem paren (h : Pushes a ts) : Pushes (.sym '(' :: a ++ [.sym ')']) [grouped ts] := by
  refine pushes_enclosed (fun _ _ => rfl) fun g stack =>
    ⟨_, h (.start .paren) (g :: stack), ?_⟩
  cases ts <;> rfl

theorem list (h : MakesItems .bracket a ts) :
    Pushes (.sym '[' :: a ++ [.sym ']']) [Term.list ts] := by
  refine pushes_enclosed (fun _ _ => rfl) fun g stack => ?_
  obtain ⟨f, hf, hall, hrun⟩ := h [] (g :: stack)
  exact ⟨f, hrun, by simp [parseStep, symbol, hf, hall, closed]⟩

theorem record (h : MakesItems .brace a ts) :
    Pushes (.sym '{' :: a ++ [.sym '}']) [.record (Term.list ts)] := by
  refine pushes_enclosed (fun _ _ => rfl) fun g stack => ?_
  obtain ⟨f, hf, hall, hrun⟩ := h [] (g :: stack)
  exact ⟨f, hrun, by simp [parseStep, symbol, hf, hall, closed]⟩

/-- **A pair.** -/
theorem pair (h : Pushes a ts) (hts : ts ≠ []) (h' : Pushes b us) (hus : us ≠ []) :
    Pushes (.sym '(' :: (a ++ .sym ',' :: b) ++ [.sym ')']) [.pair (grouped ts) (grouped us)] := by
  refine pushes_enclosed (fun _ _ => rfl) fun g stack =>
    ⟨⟨.paren, [grouped ts], none, us⟩, ?_, ?_⟩
  · have hsep : parseStep (⟨.paren, [], none, ts⟩ :: g :: stack) (.sym ',') =
        some (⟨.paren, [grouped ts], none, []⟩ :: g :: stack) := by
      simp [parseStep, symbol, Frame.separate, Frame.item, group_eq_grouped hts]
    exact (parseFrom_append _ (h (.start .paren) (g :: stack))).trans
      ((parseFrom_cons _ hsep).trans (h' ⟨.paren, [grouped ts], none, []⟩ (g :: stack)))
  · simp [parseStep, symbol, Frame.closeParen, Frame.item, group_eq_grouped hus, closed]

end Pushes

end

/-! ## Texts -/

def paren (s : Text) : Text := '(' :: s ++ [')']

def quoted (s : Text) : Text := '"' :: s ++ ['"']

def bracketed (s : Text) : Text := '[' :: s ++ [']']

def braced (s : Text) : Text := '{' :: s ++ ['}']

/-- A name or a number that is no keyword. -/
def IsWord (w : Text) : Prop := w ≠ [] ∧ w.all isWordChar = true ∧ isKeyword w = false

instance (w : Text) : Decidable (IsWord w) := inferInstanceAs (Decidable (_ ∧ _ ∧ _))

/-- A text without a quote or a backslash. -/
def IsLiteral (s : Text) : Prop := '"' ∉ s ∧ '\\' ∉ s

instance (s : Text) : Decidable (IsLiteral s) := inferInstanceAs (Decidable (_ ∧ _))

/-- No token is a keyword. -/
def Keyless (tokens : List Token) : Prop := ∀ w, .word w ∈ tokens → isKeyword w = false

theorem keyless_nil : Keyless [] := fun _ h => absurd h List.not_mem_nil

theorem keyless_append {a b : List Token} (h : Keyless a) (h' : Keyless b) : Keyless (a ++ b) :=
  fun w hw => (List.mem_append.mp hw).elim (h w) (h' w)

theorem keyless_enclosed {a : List Token} (h : Keyless a) (left right : Char) :
    Keyless (.sym left :: a ++ [.sym right]) := by
  intro w hw
  exact h w (by simpa using hw)

/-- **A text is read as some terms**, an application. -/
def Reads (s : Text) (ts : List Term) : Prop :=
  ∃ tokens, Lexes s tokens ∧ Keyless tokens ∧ Pushes tokens ts

/-- A text is read as an item of an open bracket. -/
def ReadsItem (kind : Bracket) (s : Text) (t : Term) : Prop :=
  ∃ tokens, Lexes s tokens ∧ Keyless tokens ∧ MakesItem kind tokens t

/-- A text is read as items of an open bracket. -/
def ReadsItems (kind : Bracket) (s : Text) (ts : List Term) : Prop :=
  ∃ tokens, Lexes s tokens ∧ Keyless tokens ∧ MakesItems kind tokens ts

section

variable {s t g : Text} {ts us : List Term} {u : Term} {kind : Bracket}

namespace Reads

theorem nil : Reads [] [] := ⟨[], .nil, keyless_nil, .nil⟩

theorem comment (hs : isPlain s = true) : Reads ("(* ".toList ++ s ++ " *)".toList) [] :=
  ⟨[], .comment hs, keyless_nil, .nil⟩

theorem word {w : Text} (hw : IsWord w) : Reads w [.word w] := by
  obtain ⟨hne, hchars, hkey⟩ := hw
  refine ⟨[.word w], .word hne hchars, fun v hv => ?_, .word w⟩
  obtain rfl : v = w := by simpa using hv
  exact hkey

theorem quoted (hs : IsLiteral s) : Reads (quoted s) [.str s] :=
  ⟨[.str s], .str hs.1 hs.2, fun v hv => by simp at hv, .str s⟩

theorem gap (h : Reads s ts) (hg : g.all isGap = true) : Reads (g ++ s) ts := by
  obtain ⟨tokens, hlex, hkey, hpush⟩ := h
  exact ⟨tokens, hlex.gap hg, hkey, hpush⟩

theorem trail (h : Reads s ts) (hg : g.all isGap = true) : Reads (s ++ g) ts := by
  obtain ⟨tokens, hlex, hkey, hpush⟩ := h
  exact ⟨tokens, hlex.trail hg, hkey, hpush⟩

theorem append (h : Reads s ts) (h' : Reads t us) (ht : Ends t) : Reads (s ++ t) (ts ++ us) := by
  obtain ⟨a, hlex, hkey, hpush⟩ := h
  obtain ⟨b, hlex', hkey', hpush'⟩ := h'
  exact ⟨a ++ b, hlex.append hlex' ht, keyless_append hkey hkey', hpush.append hpush'⟩

/-- Texts with a space between them. -/
theorem spaced (h : Reads s ts) (h' : Reads t us) : Reads (s ++ ' ' :: t) (ts ++ us) :=
  h.append (h'.gap (g := [' ']) (by decide)) (ends_cons (by decide) t)

/-- **Words with spaces between them** are an application. -/
theorem unwords {texts : List Text} {terms : List (List Term)}
    (h : List.Forall₂ Reads texts terms) : Reads (Text.unwords texts) terms.flatten := by
  induction h with
  | nil => exact nil
  | @cons text term texts terms hread hrest ih =>
    cases texts with
    | nil =>
      obtain rfl := List.forall₂_nil_left_iff.mp hrest
      simpa using hread
    | cons text' texts =>
      rw [Text.unwords_cons_cons, List.flatten_cons]
      exact hread.spaced ih

/-- **A text in parentheses** is one term. -/
theorem paren (h : Reads s ts) (hs : s.head? ≠ some '*') : Reads (paren s) [grouped ts] := by
  obtain ⟨a, hlex, hkey, hpush⟩ := h
  exact ⟨_, hlex.paren hs, keyless_enclosed hkey _ _, hpush.paren⟩

theorem pair (h : Reads s ts) (hts : ts ≠ []) (h' : Reads t us) (hus : us ≠ [])
    (hs : s.head? ≠ some '*') :
    Reads (Terms.paren (s ++ ',' :: ' ' :: t)) [.pair (grouped ts) (grouped us)] := by
  obtain ⟨a, hlex, hkey, hpush⟩ := h
  obtain ⟨b, hlex', hkey', hpush'⟩ := h'
  have hspace : Lexes (' ' :: t) b := hlex'.gap (g := [' ']) (by decide)
  have hcomma : Lexes (',' :: ' ' :: t) (.sym ',' :: b) :=
    (Lexes.symbol (by decide)).append hspace (ends_cons (by decide) t)
  have hhead : (s ++ ',' :: ' ' :: t).head? ≠ some '*' := by
    cases s with
    | nil => exact fun h => absurd (Option.some.inj h) (by decide)
    | cons c s => exact hs
  have hkeys : Keyless (a ++ .sym ',' :: b) :=
    keyless_append hkey fun w hw => hkey' w (by simpa using hw)
  exact ⟨_, (hlex.append hcomma (ends_cons (by decide) _)).paren hhead,
    keyless_enclosed hkeys _ _, hpush.pair hts hpush' hus⟩

theorem bracketed (h : ReadsItems .bracket s ts) : Reads (bracketed s) [Term.list ts] := by
  obtain ⟨a, hlex, hkey, hmakes⟩ := h
  exact ⟨_, hlex.enclosed (by decide) (by decide) (by decide), keyless_enclosed hkey _ _,
    .list hmakes⟩

theorem braced (h : ReadsItems .brace s ts) : Reads (braced s) [.record (Term.list ts)] := by
  obtain ⟨a, hlex, hkey, hmakes⟩ := h
  exact ⟨_, hlex.enclosed (by decide) (by decide) (by decide), keyless_enclosed hkey _ _,
    .record hmakes⟩

theorem item (h : Reads s ts) (hts : ts ≠ []) : ReadsItem kind s (grouped ts) := by
  obtain ⟨a, hlex, hkey, hpush⟩ := h
  exact ⟨a, hlex, hkey, hpush.makesItem hts⟩

/-- A field of a record. -/
theorem field (h : Reads s ts) (hts : ts ≠ []) {label : Text} (hlabel : IsWord label) :
    ReadsItem .brace (label ++ " = ".toList ++ s) (.field label (grouped ts)) := by
  obtain ⟨a, hlex, hkey, hpush⟩ := h
  have hspaces : " = ".toList = [' ', '=', ' '] := by decide
  have hvalue : Lexes ('=' :: ' ' :: s) (.sym '=' :: a) :=
    (Lexes.symbol (by decide)).append (hlex.gap (g := [' ']) (by decide)) (ends_cons (by decide) s)
  have hlex' := (Lexes.word hlabel.1 hlabel.2.1).append
    (hvalue.gap (g := [' ']) (by decide)) (ends_cons (by decide) _)
  refine ⟨_, ?_, ?_, hpush.makesField hts label⟩
  · rw [hspaces, List.append_assoc]
    exact hlex'
  · rintro w hw
    rcases List.mem_cons.mp hw with heq | hw
    · exact Token.word.inj heq ▸ hlabel.2.2
    · exact hkey w (by simpa using hw)

end Reads

theorem ReadsItem.gap (h : ReadsItem kind s u) (hg : g.all isGap = true) :
    ReadsItem kind (g ++ s) u := by
  obtain ⟨tokens, hlex, hkey, hmakes⟩ := h
  exact ⟨tokens, hlex.gap hg, hkey, hmakes⟩

namespace ReadsItems

theorem nil : ReadsItems kind [] [] := ⟨[], .nil, keyless_nil, .nil⟩

theorem single (h : ReadsItem kind s u) : ReadsItems kind s [u] := by
  obtain ⟨a, hlex, hkey, hmakes⟩ := h
  exact ⟨a, hlex, hkey, hmakes.items⟩

theorem gap (h : ReadsItems kind s ts) (hg : g.all isGap = true) :
    ReadsItems kind (g ++ s) ts := by
  obtain ⟨a, hlex, hkey, hmakes⟩ := h
  exact ⟨a, hlex.gap hg, hkey, hmakes⟩

theorem trail (h : ReadsItems kind s ts) (hg : g.all isGap = true) :
    ReadsItems kind (s ++ g) ts := by
  obtain ⟨a, hlex, hkey, hmakes⟩ := h
  exact ⟨a, hlex.trail hg, hkey, hmakes⟩

/-- **A semicolon** stands after an item, before other items or the closing bracket. -/
theorem cons (hkind : kind = .bracket ∨ kind = .brace) (h : ReadsItem kind s u)
    (h' : ReadsItems kind t ts) : ReadsItems kind (s ++ ';' :: t) (u :: ts) := by
  obtain ⟨a, hlex, hkey, hmakes⟩ := h
  obtain ⟨b, hlex', hkey', hmakes'⟩ := h'
  have hsep : Lexes (';' :: t) (.sym ';' :: b) := by
    intro rest hrest
    rw [List.cons_append, lex_symbol (by decide), hlex' rest hrest, Option.map_map]
    rfl
  exact ⟨_, hlex.append hsep (ends_cons (by decide) t),
    keyless_append hkey fun w hw => hkey' w (by simpa using hw), .cons hkind hmakes hmakes'⟩

/-- **Items with semicolons and spaces between them.** -/
theorem join {texts : List Text} (hkind : kind = .bracket ∨ kind = .brace)
    (h : List.Forall₂ (ReadsItem kind) texts ts) :
    ReadsItems kind ("; ".toList.intercalate texts) ts := by
  have hsep : "; ".toList = [';', ' '] := by decide
  induction h with
  | nil => exact nil
  | @cons text u texts ts hitem hitems ih =>
    cases texts with
    | nil =>
      obtain rfl := List.forall₂_nil_left_iff.mp hitems
      rw [List.intercalate_singleton]
      exact single hitem
    | cons text' texts =>
      have hcons : "; ".toList.intercalate (text :: text' :: texts) =
          text ++ ';' :: ([' '] ++ "; ".toList.intercalate (text' :: texts)) := by
        rw [List.intercalate_cons_cons, List.append_assoc, hsep]
        rfl
      rw [hcons]
      exact cons hkind hitem (ih.gap (g := [' ']) (by decide))

end ReadsItems

theorem item_eq_group (kind : Bracket) (items ts : List Term) :
    Frame.item ⟨kind, items, none, ts⟩ = group ts := Option.map_id'

/-- **A text read as an application is its term.** -/
theorem read_of_reads (h : Reads s ts) (hts : ts ≠ []) : read s = some (grouped ts) := by
  obtain ⟨tokens, hlex, -, hpush⟩ := h
  have htokens : lex s = some tokens := by
    have hlexed := hlex [] ends_nil
    rw [List.append_nil] at hlexed
    simpa [lex, lexFrom, finish] using hlexed
  have hparse : parse tokens = some [grouped ts] := by
    have hrun := hpush (.start .root) []
    rw [parse, hrun]
    change (Frame.item ⟨.root, [], none, ts⟩).map ([] ++ [·]) = _
    rw [item_eq_group, group_eq_grouped hts]
    rfl
  rw [read, htokens, Option.bind_some, hparse]
  rfl

/-! ## Values -/

variable {α : Type} {of : Term → Option α} {x : α}

/-- **A text is read as a value**, the one of the application that it is. -/
def ReadsAs (of : Term → Option α) (s : Text) (x : α) : Prop :=
  ∃ ts, Reads s ts ∧ of (grouped ts) = some x

/-- A text is read as a value, which needs no parentheses. -/
def ReadsAtom (of : Term → Option α) (s : Text) (x : α) : Prop :=
  ∃ t, Reads s [t] ∧ of t = some x

theorem head_unwords {w : Text} (hw : IsWord w) (args : List Text) :
    (Text.unwords (w :: args)).head? ≠ some '*' := by
  obtain ⟨c, w, rfl⟩ := List.exists_cons_of_ne_nil hw.1
  have hc : isWordChar c = true := List.all_eq_true.mp hw.2.1 c List.mem_cons_self
  have hne : c ≠ '*' := by
    rintro rfl
    exact absurd hc (by decide)
  cases args with
  | nil => simpa using hne
  | cons v args =>
    rw [Text.unwords_cons_cons]
    simpa using hne

/-- **A word and its arguments.** -/
theorem Reads.apply {w : Text} (hw : IsWord w) {args : List Text} {terms : List Term}
    (h : List.Forall₂ (fun arg term => Reads arg [term]) args terms) :
    Reads (Text.unwords (w :: args)) (.word w :: terms) := by
  have hreads : List.Forall₂ Reads (w :: args) ([.word w] :: terms.map fun term => [term]) := by
    refine .cons (.word hw) ?_
    induction h with
    | nil => exact .nil
    | cons harg hargs ih => exact .cons harg ih
  have hflat : ([Term.word w] :: terms.map fun term => [term]).flatten = .word w :: terms := by
    rw [List.flatten_cons, ← List.flatMap_def, List.flatMap_singleton']
    rfl
  exact hflat ▸ Reads.unwords hreads

namespace ReadsAs

theorem gap (h : ReadsAs of s x) (hg : g.all isGap = true) : ReadsAs of (g ++ s) x := by
  obtain ⟨ts, hread, hof⟩ := h
  exact ⟨ts, hread.gap hg, hof⟩

theorem paren (h : ReadsAs of s x) (hs : s.head? ≠ some '*') : ReadsAtom of (paren s) x := by
  obtain ⟨ts, hread, hof⟩ := h
  exact ⟨grouped ts, hread.paren hs, hof⟩

/-- A text on the lines after the parenthesis. -/
theorem parenBelow (h : ReadsAs of s x) : ReadsAtom of (Terms.paren ('\n' :: s)) x :=
  (h.gap (g := ['\n']) (by decide)).paren (by simp)

theorem apply {w : Text} (hw : IsWord w) {args : List Text} {terms : List Term}
    (h : List.Forall₂ (fun arg term => Reads arg [term]) args terms)
    (hof : of (terms.foldl .app (.word w)) = some x) :
    ReadsAs of (Text.unwords (w :: args)) x := ⟨_, Reads.apply hw h, hof⟩

end ReadsAs

theorem ReadsAtom.readsAs (h : ReadsAtom of s x) : ReadsAs of s x := by
  obtain ⟨t, hread, hof⟩ := h
  exact ⟨[t], hread, hof⟩

theorem ReadsAtom.apply {w : Text} (hw : IsWord w) {args : List Text} {terms : List Term}
    (h : List.Forall₂ (fun arg term => Reads arg [term]) args terms)
    (hof : of (terms.foldl .app (.word w)) = some x) :
    ReadsAtom of (paren (Text.unwords (w :: args))) x :=
  (ReadsAs.apply hw h hof).paren (head_unwords hw args)

/-! ## Declarations -/

/-- A text is read as some declarations. -/
def ReadsDecls (s : Text) (ds : List Decl) : Prop :=
  ∃ parts : List (Text × List Token), Lexes s (parts.flatMap fun part => .word part.1 :: part.2) ∧
    (∀ part ∈ parts, isKeyword part.1 = true ∧ Keyless part.2) ∧
    List.Forall₂ (fun part d => part.1 = d.1 ∧ parse part.2 = some d.2) parts ds

theorem isWordChar_of_isKeyword {w : Text} (h : isKeyword w = true) :
    w ≠ [] ∧ w.all isWordChar = true := by
  have hall : ∀ w ∈ [['m', 'o', 'd', 'u', 'l', 'e'], ['o', 'p', 'e', 'n'], ['l', 'e', 't']],
      w ≠ [] ∧ w.all isWordChar = true := by decide
  exact hall w (of_decide_eq_true h)

namespace ReadsDecls

variable {ds es : List Decl}

/-- A text of no tokens. -/
theorem of_lexes (h : Lexes s []) : ReadsDecls s [] := ⟨[], h, by simp, .nil⟩

theorem of_decl {keyword : Text} {tokens : List Token} (hkey : isKeyword keyword = true)
    (hlex : Lexes s tokens) (hkeys : Keyless tokens) (hparse : parse tokens = some ts) :
    ReadsDecls (keyword ++ ' ' :: s) [(keyword, ts)] := by
  obtain ⟨hne, hchars⟩ := isWordChar_of_isKeyword hkey
  refine ⟨[(keyword, tokens)], ?_, by simpa using ⟨hkey, hkeys⟩, .cons ⟨rfl, hparse⟩ .nil⟩
  simpa using (Lexes.word hne hchars).append (hlex.gap (g := [' ']) (by decide))
    (ends_cons (by decide) s)

/-- `module M`, `open M`. -/
theorem name {keyword w : Text} (hkey : isKeyword keyword = true) (hw : IsWord w) :
    ReadsDecls (keyword ++ ' ' :: w) [(keyword, [.word w])] := by
  refine of_decl hkey (.word hw.1 hw.2.1) (fun v hv => ?_) rfl
  obtain rfl : v = w := by simpa using hv
  exact hw.2.2

/-- **A definition**, with its type. -/
theorem define {w : Text} (hw : IsWord w) (h : Reads s ts) (hts : ts ≠ []) (h' : Reads t us)
    (hus : us ≠ []) (ht : Ends t) :
    ReadsDecls ("let".toList ++ ' ' :: (w ++ " : ".toList ++ (s ++ " =".toList ++ t)))
      [("let".toList, [.word w, grouped ts, grouped us])] := by
  obtain ⟨a, hlex, hkey, hpush⟩ := h
  obtain ⟨b, hlex', hkey', hpush'⟩ := h'
  have hcolon : " : ".toList = [' ', ':', ' '] := by decide
  have hequals : " =".toList = [' ', '='] := by decide
  have hbody : Lexes ('=' :: t) (.sym '=' :: b) := (Lexes.symbol (by decide)).append hlex' ht
  have htype := hlex.append (hbody.gap (g := [' ']) (by decide)) (ends_cons (by decide) _)
  have hafter : Lexes (':' :: ' ' :: (s ++ ' ' :: '=' :: t)) (.sym ':' :: (a ++ .sym '=' :: b)) :=
    (Lexes.symbol (by decide)).append (htype.gap (g := [' ']) (by decide)) (ends_cons (by decide) _)
  have hall := (Lexes.word hw.1 hw.2.1).append
    (hafter.gap (g := [' ']) (by decide)) (ends_cons (by decide) _)
  have hkeys : Keyless (.word w :: .sym ':' :: (a ++ .sym '=' :: b)) := by
    intro v hv
    simp only [List.mem_cons, List.mem_append, Token.word.injEq, reduceCtorEq, false_or] at hv
    rcases hv with rfl | hv | hv
    · exact hw.2.2
    · exact hkey v hv
    · exact hkey' v hv
  have hsep : parseStep [⟨.root, [.word w], none, ts⟩] (.sym '=') =
      some [⟨.root, [.word w, grouped ts], none, []⟩] := by
    simp [parseStep, Terms.symbol, Frame.separate, item_eq_group, group_eq_grouped hts]
  have hrun : parseFrom [.start .root] (.word w :: .sym ':' :: (a ++ .sym '=' :: b)) =
      some [⟨.root, [.word w, grouped ts], none, us⟩] := by
    have hname : parseFrom [.start .root] (.word w :: .sym ':' :: (a ++ .sym '=' :: b)) =
        parseFrom [⟨.root, [.word w], none, []⟩] (a ++ .sym '=' :: b) := rfl
    rw [hname, parseFrom_append _ (hpush ⟨.root, [.word w], none, []⟩ [])]
    exact (parseFrom_cons _ hsep).trans (hpush' ⟨.root, [.word w, grouped ts], none, []⟩ [])
  have hparse : parse (.word w :: .sym ':' :: (a ++ .sym '=' :: b)) =
      some [.word w, grouped ts, grouped us] := by
    rw [parse, hrun]
    change (Frame.item ⟨.root, [.word w, grouped ts], none, us⟩).map _ = _
    rw [item_eq_group, group_eq_grouped hus]
    rfl
  rw [hcolon, hequals, List.append_assoc, List.append_assoc]
  exact of_decl (by decide +kernel) hall hkeys hparse

theorem gap (h : ReadsDecls s ds) (hg : g.all isGap = true) : ReadsDecls (g ++ s) ds := by
  obtain ⟨parts, hlex, hparts, hdecls⟩ := h
  exact ⟨parts, hlex.gap hg, hparts, hdecls⟩

theorem append (h : ReadsDecls s ds) (h' : ReadsDecls t es) (ht : Ends t) :
    ReadsDecls (s ++ t) (ds ++ es) := by
  obtain ⟨parts, hlex, hparts, hdecls⟩ := h
  obtain ⟨parts', hlex', hparts', hdecls'⟩ := h'
  refine ⟨parts ++ parts', ?_, List.forall_mem_append.mpr ⟨hparts, hparts'⟩,
    List.rel_append hdecls hdecls'⟩
  rw [List.flatMap_append]
  exact hlex.append hlex' ht

/-- **Declarations on lines of their own.** -/
theorem unlines {pieces : List Text} {decls : List (List Decl)}
    (h : List.Forall₂ ReadsDecls pieces decls) :
    ReadsDecls (Text.unlines pieces) decls.flatten := by
  induction h with
  | nil => exact of_lexes .nil
  | @cons piece d pieces decls hpiece hrest ih =>
    have hcons : Text.unlines (piece :: pieces) = piece ++ '\n' :: Text.unlines pieces := by
      simp [Text.unlines]
    rw [hcons, List.flatten_cons]
    exact hpiece.append (ih.gap (g := ['\n']) (by decide)) (ends_cons (by decide) _)

end ReadsDecls

theorem chunks_keyless {a : List Token} (h : Keyless a) (b : List Token) :
    chunks (a ++ b) = (a ++ (chunks b).1, (chunks b).2) := by
  induction a with
  | nil => rfl
  | cons token a ih =>
    have hrest := ih fun w hw => h w (List.mem_cons_of_mem _ hw)
    cases token with
    | word w =>
      have hw : ¬isKeyword w = true := by simp [h w List.mem_cons_self]
      rw [List.cons_append, chunks, if_neg hw, hrest]
      rfl
    | str s =>
      rw [List.cons_append, chunks, hrest]
      · rfl
      · simp
    | sym c =>
      rw [List.cons_append, chunks, hrest]
      · rfl
      · simp

theorem chunks_flatMap {parts : List (Text × List Token)}
    (h : ∀ part ∈ parts, isKeyword part.1 = true ∧ Keyless part.2) :
    chunks (parts.flatMap fun part => .word part.1 :: part.2) = ([], parts) := by
  induction parts with
  | nil => rfl
  | cons part parts ih =>
    obtain ⟨⟨hkey, hkeys⟩, hrest⟩ := List.forall_mem_cons.mp h
    rw [List.flatMap_cons, List.cons_append, chunks, if_pos hkey, chunks_keyless hkeys, ih hrest]
    simp

/-- **A text read as declarations is a module of them.** -/
theorem readModule_of_readsDecls {ds : List Decl} (h : ReadsDecls s ds) :
    readModule s = some ds := by
  obtain ⟨parts, hlex, hparts, hdecls⟩ := h
  have htokens : lex s = some (parts.flatMap fun part => .word part.1 :: part.2) := by
    have hlexed := hlex [] ends_nil
    rw [List.append_nil] at hlexed
    simpa [lex, lexFrom, finish] using hlexed
  rw [readModule, htokens, Option.bind_some, chunks_flatMap hparts, if_pos rfl]
  clear hlex htokens hparts
  induction hdecls with
  | nil => rfl
  | cons hd hrest ih =>
    obtain ⟨hname, hparse⟩ := hd
    simp only [List.mapM_cons, hparse, Option.map_some, ih, hname, Option.bind_eq_bind,
      Option.bind_some, Option.pure_def]

/-- **A text is read as what its declarations declare.** -/
def ReadsDeclsAs (of : Decl → Option α) (s : Text) (xs : List α) : Prop :=
  ∃ ds, ReadsDecls s ds ∧ ds.mapM of = some xs

namespace ReadsDeclsAs

variable {of : Decl → Option α} {xs ys : List α}

theorem nil (of : Decl → Option α) : ReadsDeclsAs of [] [] := ⟨[], .of_lexes .nil, rfl⟩

theorem comment (of : Decl → Option α) (hs : isPlain s = true) :
    ReadsDeclsAs of ("(* ".toList ++ s ++ " *)".toList) [] := ⟨[], .of_lexes (.comment hs), rfl⟩

theorem of_decl {d : Decl} (h : ReadsDecls s [d]) (hof : of d = some x) :
    ReadsDeclsAs of s [x] := ⟨[d], h, by simp [hof]⟩

/-- **Declarations on lines of their own** are read one after the other. -/
theorem unlines {pieces : List Text} {xss : List (List α)}
    (h : List.Forall₂ (ReadsDeclsAs of) pieces xss) :
    ReadsDeclsAs of (Text.unlines pieces) xss.flatten := by
  have hds : ∃ dss : List (List Decl), List.Forall₂ ReadsDecls pieces dss ∧
      dss.flatten.mapM of = some xss.flatten := by
    induction h with
    | nil => exact ⟨[], .nil, rfl⟩
    | cons hpiece hrest ih =>
      obtain ⟨ds, hread, hof⟩ := hpiece
      obtain ⟨dss, hreads, hofs⟩ := ih
      refine ⟨ds :: dss, .cons hread hreads, ?_⟩
      rw [List.flatten_cons, List.mapM_append, hof, hofs]
      rfl
  obtain ⟨dss, hreads, hofs⟩ := hds
  exact ⟨dss.flatten, .unlines hreads, hofs⟩

end ReadsDeclsAs

theorem readModule_of_readsDeclsAs {of : Decl → Option α} {xs : List α}
    (h : ReadsDeclsAs of s xs) : ((readModule s).bind fun ds => ds.mapM of) = some xs := by
  obtain ⟨ds, hread, hof⟩ := h
  rw [readModule_of_readsDecls hread, Option.bind_some, hof]

end

end Terms
