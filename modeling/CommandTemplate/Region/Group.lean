import CommandTemplate.Region.Call

namespace CommandTemplate

open Logged

/-- A group in angle brackets. It ends at the first closing bracket of the region, whatever stands
before that. -/
def parseAngleGroup (group : GroupReader) (edge : Edge) (ts : List Token) : Parsed :=
  let inside := takeUntil (·.isPunct .closeAngle) ts
  match dropUntil (·.isPunct .closeAngle) ts with
  | [] =>
    ⟨do
      mistake .closeAngleExpected edge.place
      let es ← group ⟨inside, edge⟩
      pure (some (.group es)), []⟩
  | close :: rest =>
    ⟨do
      let es ← group ⟨inside, .before close.start⟩
      pure (some (.group es)), rest⟩

/-- The construct that starts with `t`. -/
def parseExpression (lenient : Bool) (group : GroupReader) (edge : Edge) (t : Token)
    (ts : List Token) : Parsed :=
  match t.value with
  | .text s => ⟨pure (some (.literal s)), ts⟩
  | .identifier name => parseCall lenient group edge name ts
  | .punct .openAngle => parseAngleGroup group edge ts
  | .punct .exclamation => parseImperative edge t.start ts
  | .punct .question => parseOptional group edge t.start ts
  | _ =>
    ⟨do
      notUnderstood t
      pure none, ts⟩

theorem parseAngleGroup_rest_suffix (group : GroupReader) (edge : Edge)
    (ts : List Token) : (parseAngleGroup group edge ts).rest <:+ ts := by
  have h := dropUntil_suffix (·.isPunct .closeAngle) ts
  simp only [parseAngleGroup]
  split
  next => exact List.nil_suffix
  next he =>
    rw [he] at h
    exact (List.suffix_cons _ _).trans h

theorem parseExpression_rest_suffix (lenient : Bool) (group : GroupReader)
    (edge : Edge) (t : Token) (ts : List Token) :
    (parseExpression lenient group edge t ts).rest <:+ ts := by
  unfold parseExpression
  split
  · exact List.suffix_refl _
  · exact parseCall_rest_suffix _ _ _ _ _
  · exact parseAngleGroup_rest_suffix _ _ _
  · exact parseImperative_rest_suffix _ _ _
  · exact parseOptional_rest_suffix _ _ _ _
  · exact List.suffix_refl _

/-- The constructs of a region, one after the other. Those that came to nothing are left out. -/
def parseExpressions (lenient : Bool) (group : GroupReader) (edge : Edge) :
    List Token → Logged (List Expr)
  | [] => pure []
  | t :: ts =>
    let parsed := parseExpression lenient group edge t ts
    parsed.outcome.andThen fun e =>
      (parseExpressions lenient group edge parsed.rest).andThen fun es => value (e.toList ++ es)
termination_by ts => ts.length
decreasing_by
  have := (parseExpression_rest_suffix lenient group edge t ts).length_le
  simp only [List.length_cons]
  omega

theorem parseExpressions_nil (lenient : Bool) (group : GroupReader) (edge : Edge) :
    parseExpressions lenient group edge [] = value [] := by
  rw [parseExpressions]
  rfl

theorem parseExpressions_cons (lenient : Bool) (group : GroupReader) (edge : Edge)
    (t : Token) (ts : List Token) :
    parseExpressions lenient group edge (t :: ts) =
      (parseExpression lenient group edge t ts).outcome.andThen fun e =>
        (parseExpressions lenient group edge (parseExpression lenient group edge t ts).rest).andThen
          fun es => value (e.toList ++ es) := by
  rw [parseExpressions]

/-- Reads a region as a group, with at most `budget` groups inside one another, this one
included. -/
def parseGroup (lenient : Bool) : Nat → Region → Logged (List Expr)
  | 0, _ => abort (.general .nestingTooDeep)
  | budget + 1, r => parseExpressions lenient (parseGroup lenient budget) r.edge r.tokens

/-- The deepest nesting of groups that is read. -/
def maxNesting : Nat := 256

/-- Reads the tokens of a text of the given length. With `lenient`, calls may be cut off by the
end of the text. -/
def parseTokens (lenient : Bool) (tokens : List Token) (length : Nat) : Logged (List Expr) :=
  parseGroup lenient maxNesting ⟨tokens, .inputEnd length⟩

end CommandTemplate
