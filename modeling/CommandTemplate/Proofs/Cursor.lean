import CommandTemplate.Region.Group

namespace CommandTemplate

/-- The tokens of a text of the given length, which are read by their positions. -/
structure Tape where
  tokens : List Token
  length : Nat
  lenient : Bool

/-- Where a reader stands, and what it has met so far: the position of the next token, how many
groups are open, how many have been open at most, whether no difference was negative, and what was
reported. -/
structure Cursor where
  pos : Nat
  depth : Nat
  deepest : Nat
  exact : Bool
  log : List Diagnostic

/-- Why a reader stops early: it gives up for a problem, or looks at a position without a token. -/
inductive Halt
  | problem (p : Problem)
  | outside

/-- Reading by position. A read that takes more rounds than it is granted has no outcome at all. -/
def Walk (α : Type) : Type := Cursor → Option (Except Halt α × Cursor)

namespace Walk

variable {α β : Type}

def value (a : α) : Walk α := fun c => some (.ok a, c)

def andThen (w : Walk α) (f : α → Walk β) : Walk β := fun c =>
  match w c with
  | none => none
  | some (.error h, c') => some (.error h, c')
  | some (.ok a, c') => f a c'

instance : Monad Walk where
  pure := value
  bind := andThen

/-- The rounds are used up. -/
def unfinished : Walk α := fun _ => none

def halt (h : Halt) : Walk α := fun c => some (.error h, c)

def position : Walk Nat := fun c => some (.ok c.pos, c)

def moveTo (pos : Nat) : Walk Unit := fun c => some (.ok (), { c with pos := pos })

/-- Goes on behind the position that was found, if any. -/
def moveBehind (limit : Nat) : Option Nat → Walk Unit
  | some i => moveTo (i + 1)
  | none => moveTo limit

def advance : Walk Unit := fun c => some (.ok (), { c with pos := c.pos + 1 })

def report (d : Diagnostic) : Walk Unit := fun c => some (.ok (), { c with log := c.log ++ [d] })

def mistake (code : Code) (span : Span) : Walk Unit :=
  report (.ofProblem (.general code) span)

/-- The stretch between two offsets. -/
def measure (start stop : Nat) : Walk Span := fun c =>
  some (.ok ⟨start, stop - start⟩, { c with exact := c.exact && decide (start ≤ stop) })

/-- Opens a group, unless too many are open. -/
def enter : Walk Unit := fun c =>
  if maxNesting ≤ c.depth then some (.error (.problem (.general .nestingTooDeep)), c)
  else some (.ok (), { c with depth := c.depth + 1, deepest := max c.deepest (c.depth + 1) })

def leave : Walk Unit := fun c =>
  some (.ok (), { c with depth := c.depth - 1, exact := c.exact && decide (1 ≤ c.depth) })

/-- Reports a token that has no place where it stands. -/
def notUnderstood (t : Token) : Walk Unit := do
  let span ← measure t.start t.stop
  report (.ofProblem (.notUnderstood t.value) span)

def notBound (hyphenFollows : Bool) (t : Token) : Walk (Option (Option Nat)) := do
  let span ← measure t.start t.stop
  mistake (if hyphenFollows then .argumentNumberExpected else .argumentNumberOrOpenBoundExpected)
    span
  pure none

/-- Reads a bound of a substitution. -/
def readBound (hyphenFollows : Bool) (t : Token) : Walk (Option (Option Nat)) :=
  match t.value with
  | .integer 0 => do
    let span ← measure t.start t.stop
    mistake .argumentNumberZero span
    pure none
  | .integer n => pure (some (some n))
  | .identifier name =>
    if !isOpenBound name then notBound hyphenFollows t
    else if hyphenFollows then do
      let span ← measure t.start t.stop
      mistake .openBoundBeforeHyphen span
      pure none
    else pure (some none)
  | _ => notBound hyphenFollows t

end Walk

namespace Tape

open Walk

variable (T : Tape)

/-- The token at a position. -/
def tokenAt (i : Nat) : Walk Token :=
  match T.tokens[i]? with
  | some t => pure t
  | none => halt .outside

/-- The next token, if it stands before `limit`. -/
def tokenBefore (limit : Nat) : Walk (Option Token) := fun c =>
  some (.ok (if c.pos < limit then T.tokens[c.pos]? else none), c)

/-- Whether the token at a position before `limit` is the given punctuation. -/
def punctAt (p : Punct) (i limit : Nat) : Bool :=
  decide (i < limit) && (T.tokens[i]?).any (·.isPunct p)

/-- Where the tokens before `limit` end in the text. -/
def regionEnd (limit : Nat) : Nat :=
  ((T.tokens[limit]?).map Token.start).getD T.length

/-- The first of `count` positions from `i` on whose token satisfies `p`. -/
def find (p : Token → Bool) : (count i : Nat) → Walk (Option Nat)
  | 0, _ => pure none
  | count + 1, i => do
    let t ← T.tokenAt i
    if p t then pure (some i) else find p count (i + 1)

/-- The first of `count` positions from `i` on that lies outside all parentheses and whose token
satisfies `p`. The search ends at a closing parenthesis without an open one. -/
def findOutside (p : Token → Bool) : (count depth i : Nat) → Walk (Option Nat)
  | 0, _, _ => pure none
  | count + 1, depth, i => do
    let t ← T.tokenAt i
    if depth = 0 ∧ p t then pure (some i)
    else if t.isPunct .openParen then findOutside p count (depth + 1) (i + 1)
    else if t.isPunct .closeParen then
      if depth = 0 then pure none else findOutside p count (depth - 1) (i + 1)
    else findOutside p count depth (i + 1)

def findPunct (p : Punct) (start limit : Nat) : Walk (Option Nat) :=
  T.find (·.isPunct p) (min limit T.tokens.length - start) start

def findOutsidePunct (p : Punct) (start limit : Nat) : Walk (Option Nat) :=
  T.findOutside (·.isPunct p) (min limit T.tokens.length - start) 0 start

/-- Something was still expected before `limit`. -/
def missing (p : Problem) (limit : Nat) : Walk Unit :=
  if T.tokens.length ≤ limit then halt (.problem p)
  else do
    Walk.report (.ofProblem p (.place (T.regionEnd limit)))
    moveTo limit

/-- Reports all tokens up to the end of a body. -/
def skipTail (marker : Marker) (limit : Nat) : (rounds : Nat) → Walk Unit
  | 0 => unfinished
  | rounds + 1 => do
    match ← T.tokenBefore limit with
    | none => T.missing (.unclosed marker) limit
    | some t =>
      if marker.endsBody t then pure ()
      else do
        notUnderstood t
        advance
        skipTail marker limit rounds

/-- Checks the order of the bounds of a body that ends here. -/
def finishBody (start : Nat) (s : Substitution) (valid : Bool) : Walk (Option Substitution) :=
  if s.reversed then do
    let t ← T.tokenAt (← position)
    let span ← measure start t.stop
    mistake .reversedRange span
    pure none
  else pure (if valid then some s else none)

/-- The tokens of a body, slot by slot. -/
def readSlots (marker : Marker) (limit start : Nat) :
    (rounds slot : Nat) → Substitution → (valid : Bool) → Walk (Option Substitution)
  | 0, _, _, _ => unfinished
  | rounds + 1, slot, s, valid => do
    match ← T.tokenBefore limit with
    | none =>
      T.missing (.unclosed marker) limit
      pure none
    | some t =>
      if marker.endsBody t then
        if slot = 1 then do
          mistake .argumentNumberOrOpenBoundExpected (.place t.start)
          T.finishBody start s false
        else T.finishBody start s valid
      else match slot with
        | 1 => do
          let i ← position
          let bound ← readBound (T.punctAt .hyphen (i + 1) limit) t
          advance
          readSlots marker limit start rounds 2 { s with first := bound.getD none }
            (valid && bound.isSome)
        | 2 =>
          if t.isPunct .hyphen then do
            advance
            readSlots marker limit start rounds 3 { s with singular := false } valid
          else do
            mistake .hyphenExpected (.place t.start)
            advance
            readSlots marker limit start rounds 3 s false
        | 3 => do
          let bound ← readBound false t
          advance
          readSlots marker limit start rounds 4 { s with last := bound.getD none }
            (valid && bound.isSome)
        | _ => do
          T.skipTail marker limit rounds
          pure none

/-- A substitution up to the token that ends its body. -/
def readSubstitution (rounds : Nat) (marker : Marker) (limit : Nat) :
    Walk (Option Substitution) := do
  let opening ← T.tokenAt (← position)
  advance
  T.readSlots marker limit opening.start rounds 1 (.single none) true

def readImperative (rounds limit : Nat) : Walk (Option Expr) := do
  let s ← T.readSubstitution rounds .imperative limit
  let i ← position
  if T.punctAt .exclamation i limit then do
    advance
    pure (s.map .imperative)
  else pure none

/-- Reports all tokens up to the closing marker of a default. -/
def skipToQuestion (limit : Nat) : (rounds : Nat) → Walk Unit
  | 0 => unfinished
  | rounds + 1 => do
    match ← T.tokenBefore limit with
    | none => T.missing (.general .questionMarkExpected) limit
    | some t => do
      advance
      if t.isPunct .question then pure ()
      else do
        notUnderstood t
        skipToQuestion limit rounds

/-- The closing marker after a default. -/
def readDefaultEnd (e : Expr) (limit : Nat) : Walk (Option Expr) := do
  match ← T.tokenBefore limit with
  | none => do
    mistake .questionMarkExpected (.place (T.regionEnd limit))
    pure none
  | some t =>
    if t.isPunct .question then do
      advance
      pure (some e)
    else do
      let span ← measure t.start t.stop
      mistake .questionMarkExpected span
      moveBehind limit (← T.findPunct .question (← position) limit)
      pure none

def parameterMissing (i : Nat) : Walk Unit :=
  mistake .parameterMissing (.place (T.regionEnd i - 1))

section

-- How the groups inside a construct are read, each up to a position.
variable (group : Nat → Walk (List Expr))

def readAngleGroup (limit : Nat) : Walk (Option Expr) := do
  advance
  match ← T.findPunct .closeAngle (← position) limit with
  | some close => do
    let es ← group close
    moveTo (close + 1)
    pure (some (.group es))
  | none => do
    mistake .closeAngleExpected (.place (T.regionEnd limit))
    let es ← group limit
    pure (some (.group es))

def readDefault (rounds : Nat) (colon : Token) (limit : Nat) : Walk (Option Expr) := do
  match ← T.tokenBefore limit with
  | none => do
    mistake .questionMarkExpected (.place (T.regionEnd limit))
    pure none
  | some t =>
    match t.value with
    | .punct .openParen => do
      advance
      match ← T.findOutsidePunct .closeParen (← position) limit with
      | none => do
        mistake .closeParenExpected (.place (T.regionEnd limit))
        let _ ← group limit
        pure none
      | some close => do
        let es ← group close
        moveTo (close + 1)
        T.readDefaultEnd (.group es) limit
    | .text s => do
      advance
      T.readDefaultEnd (.literal s) limit
    | .punct .question => do
      mistake .expressionExpected (.place colon.stop)
      advance
      pure none
    | _ => do
      mistake .expressionExpected (.place colon.stop)
      T.skipToQuestion limit rounds
      pure none

def readOptional (rounds limit : Nat) : Walk (Option Expr) := do
  let s ← T.readSubstitution rounds .optional limit
  match ← T.tokenBefore limit with
  | none => pure none
  | some t => do
    advance
    if t.isPunct .colon then
      match ← T.readDefault group rounds t limit with
      | none => pure none
      | some e => pure (s.map (.optional · (some e)))
    else pure (s.map (.optional · none))

/-- The arguments of a call up to the position `bound`. -/
def readArguments (closed : Bool) (bound : Nat) :
    (rounds : Nat) → (afterComma : Bool) → Walk (List (List Expr))
  | 0, _ => unfinished
  | rounds + 1, afterComma => do
    let i ← position
    if bound ≤ i then
      if afterComma && closed then do
        T.parameterMissing bound
        pure []
      else pure []
    else do
      let t ← T.tokenAt i
      if t.isPunct .comma then do
        T.parameterMissing i
        advance
        readArguments closed bound rounds true
      else
        match ← T.findOutsidePunct .comma i bound with
        | some comma => do
          let e ← group comma
          moveTo (comma + 1)
          let es ← readArguments closed bound rounds true
          pure (e :: es)
        | none => do
          let e ← group bound
          let es ← readArguments closed bound rounds false
          pure (e :: es)

def readOpenCall (rounds : Nat) (name : String) (limit : Nat) : Walk (Option Expr) := do
  match ← T.findOutsidePunct .closeParen (← position) limit with
  | some close => do
    let as ← T.readArguments group true close rounds false
    moveTo (close + 1)
    pure (some (.call name as))
  | none => do
    let as ← T.readArguments group false (min limit T.tokens.length) rounds false
    if T.lenient && decide (T.tokens.length ≤ limit) then pure (some (.call name as))
    else do
      T.missing (.general .closeParenExpected) limit
      pure (some (.call name as))

def readCall (rounds limit : Nat) : Walk (Option Expr) := do
  let t ← T.tokenAt (← position)
  let name := match t.value with
    | .identifier name => name
    | v => v.display
  advance
  match ← T.tokenBefore limit with
  | none =>
    if T.lenient then pure (some (.call name []))
    else do
      T.missing (.general .bothParensExpected) limit
      pure (some (.call name []))
  | some next =>
    if next.isPunct .openParen then do
      advance
      T.readOpenCall group rounds name limit
    else do
      mistake .openParenExpected (.place next.start)
      T.readOpenCall group rounds name limit

/-- Reads one construct, which ends at `limit` at the latest. -/
def readExpression (rounds limit : Nat) : Walk (Option Expr) := do
  match ← T.tokenBefore limit with
  | none => halt (.problem (.general .expressionExpected))
  | some t =>
    match t.value with
    | .text s => do
      advance
      pure (some (.literal s))
    | .identifier _ => T.readCall group rounds limit
    | .punct .openAngle => T.readAngleGroup group limit
    | .punct .exclamation => T.readImperative rounds limit
    | .punct .question => T.readOptional group rounds limit
    | _ => do
      notUnderstood t
      advance
      pure none

def readExpressions (stop : Nat) : (rounds : Nat) → Walk (List Expr)
  | 0 => unfinished
  | rounds + 1 => do
    if (← position) < stop then
      let e ← T.readExpression group rounds stop
      let es ← readExpressions stop rounds
      pure (e.toList ++ es)
    else pure []

end

/-- Reads the tokens up to the position `stop` as a group. Every loop on the way, and the nesting
of groups, is granted so many rounds. -/
def readGroup : (rounds : Nat) → (stop : Nat) → Walk (List Expr)
  | 0, _ => unfinished
  | rounds + 1, stop => do
    enter
    let es ← T.readExpressions (readGroup rounds) stop rounds
    leave
    pure es

/-- Reads all tokens from the first one on. -/
def readTokens (rounds : Nat) : Option (Except Halt (List Expr) × Cursor) :=
  T.readGroup rounds T.tokens.length ⟨0, 0, 0, true, []⟩

end Tape

end CommandTemplate
