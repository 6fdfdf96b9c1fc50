import CommandTemplate.Expr
import CommandTemplate.Region
import CommandTemplate.Text.Identifier

namespace CommandTemplate

open Logged

/-- A way to read a region as a group. The constructs that hold groups are read with the help of
one, which stands for what may be nested in them. -/
abbrev GroupReader := Region → Logged (List Expr)

/-- What one construct yields, and the tokens after it. -/
structure Parsed where
  outcome : Logged (Option Expr)
  rest : List Token

/-- The tokens that end the body of a substitution. -/
def Marker.endsBody (m : Marker) (t : Token) : Bool :=
  t.isPunct m.punct || (m == .optional && t.isPunct .colon)

/-- Reports a token that is no bound. -/
def notBound (hyphenFollows : Bool) (t : Token) : Logged (Option (Option Nat)) := do
  mistake (if hyphenFollows then .argumentNumberExpected else .argumentNumberOrOpenBoundExpected)
    t.span
  pure none

/-- Reads a bound of a substitution: a positive number, or the open bound where no hyphen
follows. -/
def parseBound (hyphenFollows : Bool) (t : Token) : Logged (Option (Option Nat)) :=
  match t.value with
  | .integer 0 => do
    mistake .argumentNumberZero t.span
    pure none
  | .integer n => pure (some (some n))
  | .identifier name =>
    if !isOpenBound name then notBound hyphenFollows t
    else if hyphenFollows then do
      mistake .openBoundBeforeHyphen t.span
      pure none
    else pure (some none)
  | _ => notBound hyphenFollows t

/-- Reads the hyphen of a range, and says whether it is there. -/
def parseHyphen (t : Token) : Logged Bool :=
  if t.isPunct .hyphen then pure true
  else do
    mistake .hyphenExpected (.place t.start)
    pure false

/-- The range between two bounds, if there is a hyphen and both have been read. -/
def rangeOf (hyphen : Bool) (first last : Option (Option Nat)) : Option Substitution :=
  match hyphen, first, last with
  | true, some first, some last => some ⟨first, last, false⟩
  | _, _, _ => none

/-- Reads the tokens between the markers: a bound, or two with a hyphen between them, of which the
second may be left out. Tokens after those are not understood. -/
def parseBody : List Token → Logged (Option Substitution)
  | [] => pure none
  | [a] => do
    let number ← parseBound false a
    pure (number.map .single)
  | [a, h] => do
    let first ← parseBound (h.isPunct .hyphen) a
    let hyphen ← parseHyphen h
    pure (rangeOf hyphen first (some none))
  | a :: h :: b :: extra => do
    let first ← parseBound (h.isPunct .hyphen) a
    let hyphen ← parseHyphen h
    let last ← parseBound false b
    noneUnderstood extra
    pure (if extra.isEmpty then rangeOf hyphen first last else none)

/-- Reads the tokens between the marker at offset `start` and the token that ends the body. The
body may not be empty, and a range may not be reversed. -/
def parseClosedBody (start : Nat) (inner : List Token) (terminator : Token) :
    Logged (Option Substitution) := do
  if inner.isEmpty then
    mistake .argumentNumberOrOpenBoundExpected (.place terminator.start)
  match ← parseBody inner with
  | none => pure none
  | some s =>
    if s.reversed then do
      mistake .reversedRange ⟨start, terminator.stop - start⟩
      pure none
    else pure (some s)

/-- A body that nothing ends: its tokens are checked, and the marker is missing. -/
def parseUnclosedBody (marker : Marker) (edge : Edge) (inner : List Token) :
    Logged (Option Expr) := do
  let _ ← parseBody inner
  edge.missing (.unclosed marker)
  pure none

/-- A substitution that has to be filled in. `ts` follows the marker at offset `start`. -/
def parseImperative (edge : Edge) (start : Nat) (ts : List Token) : Parsed :=
  let inner := takeUntil Marker.imperative.endsBody ts
  match dropUntil Marker.imperative.endsBody ts with
  | [] => ⟨parseUnclosedBody .imperative edge inner, []⟩
  | terminator :: rest =>
    ⟨do
      let s ← parseClosedBody start inner terminator
      pure (s.map .imperative), rest⟩

/-- The closing marker after a default. Without it the default is dropped, along with everything
up to the next such marker. -/
def parseDefaultEnd (edge : Edge) (value : Logged Expr) : List Token → Parsed
  | [] =>
    ⟨do
      let _ ← value
      mistake .questionMarkExpected edge.place
      pure none, []⟩
  | t :: ts =>
    if t.isPunct .question then
      ⟨do
        let e ← value
        pure (some e), ts⟩
    else
      ⟨do
        let _ ← value
        mistake .questionMarkExpected t.span
        pure none, (dropUntil (·.isPunct .question) ts).drop 1⟩

/-- No default where one is due: all tokens up to the closing marker are out of place. -/
def skipDefault (edge : Edge) (colon : Token) (ts : List Token) : Parsed :=
  let skipped := takeUntil (·.isPunct .question) ts
  match dropUntil (·.isPunct .question) ts with
  | [] =>
    ⟨do
      mistake .expressionExpected (.place colon.stop)
      noneUnderstood skipped
      edge.missing (.general .questionMarkExpected)
      pure none, []⟩
  | _ :: rest =>
    ⟨do
      mistake .expressionExpected (.place colon.stop)
      noneUnderstood skipped
      pure none, rest⟩

/-- The default after a colon, up to and including the closing marker. `group` reads the group of
a default in parentheses. -/
def parseDefault (group : GroupReader) (edge : Edge) (colon : Token) :
    List Token → Parsed
  | [] =>
    ⟨do
      mistake .questionMarkExpected edge.place
      pure none, []⟩
  | t :: ts =>
    match t.value with
    | .text s => parseDefaultEnd edge (pure (.literal s)) ts
    | .punct .openParen =>
      let inside := takeEnclosed 0 ts
      match dropEnclosed 0 ts with
      | [] =>
        ⟨do
          mistake .closeParenExpected edge.place
          let _ ← group ⟨inside, edge⟩
          pure none, []⟩
      | close :: rest =>
        parseDefaultEnd edge (do
          let es ← group ⟨inside, .before close.start⟩
          pure (.group es)) rest
    | _ => skipDefault edge colon (t :: ts)

/-- A substitution that may be left out. `ts` follows the marker at offset `start`. -/
def parseOptional (group : GroupReader) (edge : Edge) (start : Nat)
    (ts : List Token) : Parsed :=
  let inner := takeUntil Marker.optional.endsBody ts
  match dropUntil Marker.optional.endsBody ts with
  | [] => ⟨parseUnclosedBody .optional edge inner, []⟩
  | terminator :: rest =>
    if terminator.isPunct .colon then
      let parsed := parseDefault group edge terminator rest
      ⟨do
        let s ← parseClosedBody start inner terminator
        match ← parsed.outcome with
        | none => pure none
        | some e => pure (s.map (.optional · (some e))), parsed.rest⟩
    else
      ⟨do
        let s ← parseClosedBody start inner terminator
        pure (s.map (.optional · none)), rest⟩

theorem parseDefaultEnd_rest_suffix (edge : Edge) (value : Logged Expr) (ts : List Token) :
    (parseDefaultEnd edge value ts).rest <:+ ts := by
  cases ts with
  | nil => exact List.suffix_refl _
  | cons t ts =>
    simp only [parseDefaultEnd]
    split
    · exact List.suffix_cons t ts
    · exact ((List.drop_suffix 1 _).trans (dropUntil_suffix _ ts)).trans (List.suffix_cons t ts)

theorem skipDefault_rest_suffix (edge : Edge) (colon : Token) (ts : List Token) :
    (skipDefault edge colon ts).rest <:+ ts := by
  have h := dropUntil_suffix (·.isPunct .question) ts
  simp only [skipDefault]
  split
  next => exact List.nil_suffix
  next he =>
    rw [he] at h
    exact (List.suffix_cons _ _).trans h

theorem parseDefault_rest_suffix (group : GroupReader) (edge : Edge)
    (colon : Token) (ts : List Token) : (parseDefault group edge colon ts).rest <:+ ts := by
  cases ts with
  | nil => exact List.suffix_refl _
  | cons t ts =>
    simp only [parseDefault]
    split
    next => exact (parseDefaultEnd_rest_suffix _ _ _).trans (List.suffix_cons _ _)
    next =>
      have h := dropEnclosed_suffix 0 ts
      split
      next => exact List.nil_suffix
      next he =>
        rw [he] at h
        exact (((parseDefaultEnd_rest_suffix _ _ _).trans (List.suffix_cons _ _)).trans h).trans
          (List.suffix_cons _ _)
    next => exact skipDefault_rest_suffix _ _ _

theorem parseImperative_rest_suffix (edge : Edge) (start : Nat) (ts : List Token) :
    (parseImperative edge start ts).rest <:+ ts := by
  have h := dropUntil_suffix Marker.imperative.endsBody ts
  simp only [parseImperative]
  split
  next => exact List.nil_suffix
  next he =>
    rw [he] at h
    exact (List.suffix_cons _ _).trans h

theorem parseOptional_rest_suffix (group : GroupReader) (edge : Edge) (start : Nat)
    (ts : List Token) : (parseOptional group edge start ts).rest <:+ ts := by
  have h := dropUntil_suffix Marker.optional.endsBody ts
  simp only [parseOptional]
  split
  next => exact List.nil_suffix
  next he =>
    rw [he] at h
    have h := (List.suffix_cons _ _).trans h
    split
    · exact (parseDefault_rest_suffix _ _ _ _).trans h
    · exact h

end CommandTemplate
