import CommandTemplate.Logged

namespace CommandTemplate

/-- Where a region ends: with the whole text of the given length, or before the token at the
given offset, which belongs to an enclosing region. -/
inductive Edge
  | inputEnd (length : Nat)
  | before (offset : Nat)
deriving DecidableEq

namespace Edge

def offset : Edge → Nat
  | .inputEnd length => length
  | .before offset => offset

def isInputEnd : Edge → Bool
  | .inputEnd _ => true
  | .before _ => false

/-- The place where the region ends. -/
def place (e : Edge) : Span :=
  .place e.offset

end Edge

/-- Tokens to be read as a group, and where they end. -/
structure Region where
  tokens : List Token
  edge : Edge
deriving DecidableEq

/-- Something was still expected where the region ends. That is fatal at the end of the text.
Inside it is reported, and parsing goes on after the region. -/
def Edge.missing (e : Edge) (p : Problem) : Logged Unit :=
  match e with
  | .inputEnd _ => .abort p
  | .before offset => .problem p (.place offset)

/-- The parenthesis depth after a token. -/
def Token.depthAfter (t : Token) (depth : Nat) : Nat :=
  if t.isPunct .openParen then depth + 1
  else if t.isPunct .closeParen then depth - 1
  else depth

/-- The tokens inside parentheses that are open at the given depth. -/
def takeEnclosed : Nat → List Token → List Token
  | _, [] => []
  | depth, t :: ts =>
    if depth = 0 ∧ t.isPunct .closeParen then [] else t :: takeEnclosed (t.depthAfter depth) ts

/-- What follows the tokens inside parentheses: nothing, or the closing parenthesis first. -/
def dropEnclosed : Nat → List Token → List Token
  | _, [] => []
  | depth, t :: ts =>
    if depth = 0 ∧ t.isPunct .closeParen then t :: ts else dropEnclosed (t.depthAfter depth) ts

/-- The tokens in front of the first `p`. -/
def takeUntil (p : Token → Bool) (ts : List Token) : List Token :=
  ts.takeWhile (fun t => !p t)

/-- What follows them: nothing, or the first `p` and all after it. -/
def dropUntil (p : Token → Bool) (ts : List Token) : List Token :=
  ts.dropWhile (fun t => !p t)

/-- Cuts a region at the commas outside all parentheses. The first part comes apart from the
others, since there is always one. -/
def cutAtCommas (edge : Edge) : Nat → List Token → Region × List Region
  | _, [] => (⟨[], edge⟩, [])
  | depth, t :: ts =>
    if depth = 0 ∧ t.isPunct .comma then
      let later := cutAtCommas edge 0 ts
      (⟨[], .before t.start⟩, later.1 :: later.2)
    else
      let later := cutAtCommas edge (t.depthAfter depth) ts
      (⟨t :: later.1.tokens, later.1.edge⟩, later.2)

/-- The parts of a region between its commas outside all parentheses. -/
def Region.parts (r : Region) : List Region :=
  let cut := cutAtCommas r.edge 0 r.tokens
  cut.1 :: cut.2

theorem takeEnclosed_append_dropEnclosed (depth : Nat) (ts : List Token) :
    takeEnclosed depth ts ++ dropEnclosed depth ts = ts := by
  induction ts generalizing depth with
  | nil => simp [takeEnclosed, dropEnclosed]
  | cons t ts ih =>
    simp only [takeEnclosed, dropEnclosed]
    split
    · simp
    · simp [ih]

theorem takeUntil_append_dropUntil (p : Token → Bool) (ts : List Token) :
    takeUntil p ts ++ dropUntil p ts = ts :=
  List.takeWhile_append_dropWhile

theorem dropEnclosed_suffix (depth : Nat) (ts : List Token) : dropEnclosed depth ts <:+ ts :=
  ⟨_, takeEnclosed_append_dropEnclosed depth ts⟩

theorem dropUntil_suffix (p : Token → Bool) (ts : List Token) : dropUntil p ts <:+ ts :=
  ⟨_, takeUntil_append_dropUntil p ts⟩

end CommandTemplate
