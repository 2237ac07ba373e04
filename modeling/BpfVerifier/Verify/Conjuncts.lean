import BpfVerifier.Machinery.TextSearch

/-!
# Verify/Conjuncts — `parse_conjuncts`

Reading the conjuncts of a normalised postcondition from F* output and simplifying them for display.
`none` is a panic of a string slice; functions that return an `Option` in the source return one
inside.
-/

namespace BpfVerifier

open Text

/-- A single conjunct from the normalised postcondition. -/
structure ConjunctInfo where
  disjunct : ℕ
  text : Text
  deriving DecidableEq, Repr

/-! ## Parentheses -/

/-- The loop of `find_matching_close`, at a depth and a position; the depth is an `i32`. -/
def matchingClose (depth : BitVec 32) (i : ℕ) : Text → Option ℕ
  | [] => none
  | c :: s =>
    if c = '(' then matchingClose (depth + 1) (i + c.utf8Size) s
    else if c = ')' then
      if depth - 1 = 0 then some i else matchingClose (depth - 1) (i + c.utf8Size) s
    else matchingClose depth (i + c.utf8Size) s

/-- `find_matching_close`. -/
def findMatchingClose (s : Text) : Option ℕ := matchingClose 0 0 s

/-- `skip_parens`. -/
def skipParens (s : Text) : Option (Option Text) :=
  if s.head? = some '(' then
    match findMatchingClose s with
    | none => some none
    | some close => (s.sliceFrom (close + 1)).map some
  else some ((splitOnce ' ' s).map Prod.snd)

/-- The second group of two, out of its parentheses if it has both. -/
def unwrapGroup (rest : Text) : Text :=
  ((stripPrefix ['('] rest).bind (stripSuffix [')'])).getD rest

/-- `split_top_level_terms`. -/
def splitTopLevelTerms (s : Text) : Option (Option (Text × Text)) :=
  if s.head? = some '(' then
    match findMatchingClose s with
    | none => some none
    | some close => do
      let first ← s.slice 1 close
      let rest ← s.sliceFrom (close + 1)
      return some (first, unwrapGroup rest.trimStart)
  else some none

/-! ## Terms -/

/-- Width tokens, in the order they are looked for. -/
def widthTokens : List Text := ["W64".toList, "W32".toList, "W16".toList, "W8".toList]

/-- `for width in …`: the offset is the token just before the width. -/
def simplifyRead (s : Text) : List Text → Option Text
  | [] => some "Some? (ringbuf_read_any rb ...)".toList
  | width :: widths =>
    match find width s with
    | none => simplifyRead s widths
    | some wPos =>
      (s.sliceTo wPos).bind fun before =>
        match rfind (fun c => !c.isDigit) before.trim with
        | none => simplifyRead s widths
        | some offStart =>
          (before.trim.sliceFrom (offStart + 1)).bind fun offset =>
            if offset.trim = [] then simplifyRead s widths
            else some ("Some? (ringbuf_read_any rb ".toList ++ offset.trim ++ ' ' :: width ++ [')'])

/-- The term checks that a ringbuf read succeeds. -/
def IsRead (s : Text) : Prop :=
  contains "ringbuf_read_any".toList s ∧ contains "Some _".toList s

instance (s : Text) : Decidable (IsRead s) := inferInstanceAs (Decidable (_ ∧ _))

/-- `simplify_term`. -/
def simplifyTerm (s : Text) : Option Text :=
  match stripPrefix "Scalar ".toList s with
  | some rest => some rest
  | none =>
    if IsRead s then simplifyRead s widthTokens
    else if contains "List.Tot.Base.length".toList s then
      -- whether or not the rest is a balanced group
      some "ringbuf_write_count rb".toList
    else if s = "true".toList ∨ s = "false".toList then some s
    else if s.len > 80 then (s.sliceTo 77).map (· ++ "...".toList)
    else some s

/-! ## Conjuncts -/

/-- `simplify_conjunct`. -/
def simplifyConjunct (text : Text) : Option Text :=
  match stripPrefix "Eq ".toList text with
  | none => simplifyTerm text
  | some rest =>
    (skipParens rest).bind fun
      | none => simplifyTerm text
      | some afterType =>
        (splitTopLevelTerms afterType.trimStart).bind fun
          | none => simplifyTerm text
          | some (lhs, rhs) => do
            let lhs ← simplifyTerm lhs.trim
            let rhs ← simplifyTerm rhs.trim
            if rhs = "true".toList ∧ "Some?".toList.isPrefixOf lhs then
              return lhs
            return lhs ++ " == ".toList ++ rhs

/-- The index and the text of a `CONJUNCT|<disjunct>|<text>` line. -/
def conjunctLine (line : Text) : Option (ℕ × Text) := do
  let rest ← (stripPrefix "TAC>> CONJUNCT|".toList line).or (stripPrefix "CONJUNCT|".toList line)
  let (idxStr, text) ← splitOnce '|' rest
  let disjunct ← parseUsize idxStr
  return (disjunct, text)

/-- `for line in stderr.lines()`. -/
def conjunctsOf : List Text → Option (List ConjunctInfo)
  | [] => some []
  | line :: rest =>
    match conjunctLine line with
    | none => conjunctsOf rest
    | some (disjunct, text) => do
      let text ← simplifyConjunct text
      let conjuncts ← conjunctsOf rest
      return ⟨disjunct, text⟩ :: conjuncts

/-- **`parse_conjuncts`**. -/
def parseConjuncts (stderr : Text) : Option (List ConjunctInfo) := conjunctsOf stderr.lines

end BpfVerifier
