namespace CommandTemplate

/-- Names start with an ASCII letter or an underscore. -/
def isIdentStart (c : Char) : Bool :=
  c.isAlpha || c == '_'

/-- Names go on with ASCII letters, digits and underscores. -/
def isIdentContinue (c : Char) : Bool :=
  isIdentStart c || c.isDigit

/-- A whole name. -/
def isIdentifier : List Char → Bool
  | [] => false
  | c :: cs => isIdentStart c && cs.all isIdentContinue

/-- The name of the open bound of a substitution, as it is written. -/
def openBound : String := "N"

/-- The open bound is read in either case. -/
def isOpenBound (s : String) : Bool :=
  s == "N" || s == "n"

theorem isIdentContinue_of_isIdentStart {c : Char} (h : isIdentStart c = true) :
    isIdentContinue c = true := by
  simp [isIdentContinue, h]

end CommandTemplate
