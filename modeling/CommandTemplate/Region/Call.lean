import CommandTemplate.Region.Substitution

namespace CommandTemplate

open Logged

/-- Reads the arguments of a call from the parts between its commas. An empty part is reported,
except that an empty last part may be still to come in a call that is not closed. -/
def parseArguments (group : GroupReader) (closed : Bool) :
    List Region → Logged (List (List Expr))
  | [] => pure []
  | part :: parts =>
    if part.tokens.isEmpty then
      if parts.isEmpty && !closed then pure []
      else do
        mistake .parameterMissing (.place (part.edge.offset - 1))
        parseArguments group closed parts
    else do
      let e ← group part
      let es ← parseArguments group closed parts
      pure (e :: es)

/-- Reads what stands between the parentheses of a call. -/
def parseArgumentList (group : GroupReader) (closed : Bool) (inside : Region) :
    Logged (List (List Expr)) :=
  if inside.tokens.isEmpty then pure [] else parseArguments group closed inside.parts

/-- The rest of a call behind its open parenthesis. With `lenient` the closing parenthesis may be
missing at the end of the text. -/
def parseOpenCall (lenient : Bool) (group : GroupReader) (edge : Edge)
    (name : String) (ts : List Token) : Parsed :=
  let inside := takeEnclosed 0 ts
  match dropEnclosed 0 ts with
  | [] =>
    ⟨do
      let as ← parseArgumentList group false ⟨inside, edge⟩
      if !(lenient && edge.isInputEnd) then
        edge.missing (.general .closeParenExpected)
      pure (some (.call name as)), []⟩
  | close :: rest =>
    ⟨do
      let as ← parseArgumentList group true ⟨inside, .before close.start⟩
      pure (some (.call name as)), rest⟩

/-- A call of `name`. A token other than an open parenthesis is read as if one stood before
it. -/
def parseCall (lenient : Bool) (group : GroupReader) (edge : Edge) (name : String) :
    List Token → Parsed
  | [] =>
    ⟨do
      if !lenient then
        edge.missing (.general .bothParensExpected)
      pure (some (.call name [])), []⟩
  | t :: ts =>
    if t.isPunct .openParen then parseOpenCall lenient group edge name ts
    else
      let parsed := parseOpenCall lenient group edge name (t :: ts)
      ⟨do
        mistake .openParenExpected (.place t.start)
        parsed.outcome, parsed.rest⟩

theorem parseOpenCall_rest_suffix (lenient : Bool) (group : GroupReader) (edge : Edge)
    (name : String) (ts : List Token) : (parseOpenCall lenient group edge name ts).rest <:+ ts := by
  have h := dropEnclosed_suffix 0 ts
  simp only [parseOpenCall]
  split
  next => exact List.nil_suffix
  next he =>
    rw [he] at h
    exact (List.suffix_cons _ _).trans h

theorem parseCall_rest_suffix (lenient : Bool) (group : GroupReader) (edge : Edge)
    (name : String) (ts : List Token) : (parseCall lenient group edge name ts).rest <:+ ts := by
  cases ts with
  | nil => exact List.suffix_refl _
  | cons t ts =>
    simp only [parseCall]
    split
    · exact (parseOpenCall_rest_suffix _ _ _ _ _).trans (List.suffix_cons _ _)
    · exact parseOpenCall_rest_suffix _ _ _ _ _

end CommandTemplate
