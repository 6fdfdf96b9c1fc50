namespace CommandTemplate

namespace Toml

/-- Reads a value off the front of a text, or fails. -/
abbrev Reader := StateT (List Char) Option

namespace Reader

variable {α : Type}

/-- The next character, which is left in place. -/
def peek : Reader (Option Char) :=
  fun cs => some (cs.head?, cs)

/-- One character that satisfies `p`. -/
def satisfy (p : Char → Bool) : Reader Char
  | [] => none
  | c :: cs => if p c then some (c, cs) else none

/-- The given text. -/
def exactly (s : String) : Reader Unit :=
  fun cs => if s.toList.isPrefixOf cs then some ((), cs.drop s.toList.length) else none

/-- The longest run of characters that satisfy `p`. -/
def run (p : Char → Bool) : Reader (List Char) :=
  fun cs => some (cs.takeWhile p, cs.dropWhile p)

/-- Exactly `n` characters that satisfy `p`. -/
def count (p : Char → Bool) : Nat → Reader (List Char)
  | 0 => pure []
  | n + 1 => do
    let c ← satisfy p
    let cs ← count p n
    pure (c :: cs)

/-- Reads as often as possible, and stops where a round reads nothing. -/
def manyFrom (r : Reader α) (cs : List Char) : List α × List Char :=
  match r cs with
  | none => ([], cs)
  | some (a, rest) =>
    if rest.length < cs.length then
      let later := manyFrom r rest
      (a :: later.1, later.2)
    else ([], cs)
termination_by cs.length

/-- Reads as often as possible. -/
def many (r : Reader α) : Reader (List α) :=
  fun cs => some (manyFrom r cs)

/-- Reads if possible. -/
def optional (r : Reader α) : Reader (Option α) :=
  fun cs =>
    match r cs with
    | some (a, rest) => some (some a, rest)
    | none => some (none, cs)

/-- Succeeds where the text ends. -/
def atEnd : Reader Unit
  | [] => some ((), [])
  | _ :: _ => none

end Reader

end Toml

end CommandTemplate
