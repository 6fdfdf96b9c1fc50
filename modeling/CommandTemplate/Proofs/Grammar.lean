import CommandTemplate.Region.Group

namespace CommandTemplate

/-- What may stand between the markers of a substitution, and what it means. -/
inductive DerivesBody : List TokenValue → Substitution → Prop
  | number {n : Nat} : 1 ≤ n → DerivesBody [.integer n] (.single (some n))
  | all {name : String} : isOpenBound name = true →
      DerivesBody [.identifier name] (.single none)
  | onward {n : Nat} : 1 ≤ n → DerivesBody [.integer n, .punct .hyphen] (.range n none)
  | toEnd {n : Nat} {name : String} : 1 ≤ n → isOpenBound name = true →
      DerivesBody [.integer n, .punct .hyphen, .identifier name] (.range n none)
  | range {n m : Nat} : 1 ≤ n → n ≤ m →
      DerivesBody [.integer n, .punct .hyphen, .integer m] (.range n (some m))

mutual

/-- The grammar of templates over the contents of tokens, with the tree of each derivation. No
closing angle bracket stands inside a group in angle brackets, nested or not. -/
inductive DerivesExpr : List TokenValue → Expr → Prop
  | text (s : String) : DerivesExpr [.text s] (.literal s)
  | emptyCall (name : String) :
      DerivesExpr [.identifier name, .punct .openParen, .punct .closeParen] (.call name [])
  | call (name : String) {vs : List TokenValue} {arguments : List (List Expr)} :
      DerivesArguments vs arguments →
      DerivesExpr (.identifier name :: .punct .openParen :: (vs ++ [.punct .closeParen]))
        (.call name arguments)
  | group {vs : List TokenValue} {es : List Expr} :
      DerivesGroup vs es → .punct .closeAngle ∉ vs →
      DerivesExpr (.punct .openAngle :: (vs ++ [.punct .closeAngle])) (.group es)
  | imperative {vs : List TokenValue} {s : Substitution} : DerivesBody vs s →
      DerivesExpr (.punct .exclamation :: (vs ++ [.punct .exclamation])) (.imperative s)
  | optional {vs : List TokenValue} {s : Substitution} : DerivesBody vs s →
      DerivesExpr (.punct .question :: (vs ++ [.punct .question])) (.optional s none)
  | literalDefault {vs : List TokenValue} {s : Substitution} (text : String) :
      DerivesBody vs s →
      DerivesExpr (.punct .question :: (vs ++ [.punct .colon, .text text, .punct .question]))
        (.optional s (some (.literal text)))
  | groupDefault {vs ws : List TokenValue} {s : Substitution} {es : List Expr} :
      DerivesBody vs s → DerivesGroup ws es →
      DerivesExpr (.punct .question :: (vs ++ .punct .colon :: .punct .openParen ::
          (ws ++ [.punct .closeParen, .punct .question])))
        (.optional s (some (.group es)))

/-- A group is any number of expressions. -/
inductive DerivesGroup : List TokenValue → List Expr → Prop
  | nil : DerivesGroup [] []
  | cons {vs ws : List TokenValue} {e : Expr} {es : List Expr} :
      DerivesExpr vs e → DerivesGroup ws es → DerivesGroup (vs ++ ws) (e :: es)

/-- One or more arguments with commas between them, none of them empty. -/
inductive DerivesArguments : List TokenValue → List (List Expr) → Prop
  | last {vs : List TokenValue} {a : List Expr} :
      vs ≠ [] → DerivesGroup vs a → DerivesArguments vs [a]
  | more {vs ws : List TokenValue} {a : List Expr} {as : List (List Expr)} :
      vs ≠ [] → DerivesGroup vs a → DerivesArguments ws as →
      DerivesArguments (vs ++ .punct .comma :: ws) (a :: as)

end

mutual

/-- How many groups stand inside one another within an expression. A group in angle brackets, an
argument and a default in parentheses are one level each. -/
def Expr.nesting : Expr → Nat
  | .literal _ => 0
  | .identifier _ => 0
  | .group es => groupNesting es
  | .call _ arguments => argumentsNesting arguments
  | .imperative _ => 0
  | .optional _ none => 0
  | .optional _ (some e) => e.nesting

/-- The nesting of a group, which counts itself. -/
def groupNesting : List Expr → Nat
  | [] => 1
  | e :: es => max (e.nesting + 1) (groupNesting es)

/-- The nesting of the deepest argument. -/
def argumentsNesting : List (List Expr) → Nat
  | [] => 0
  | a :: as => max (groupNesting a) (argumentsNesting as)

end

theorem groupNesting_pos (es : List Expr) : 0 < groupNesting es := by
  induction es with
  | nil => simp [groupNesting]
  | cons e es ih => simp only [groupNesting]; omega

theorem groupNesting_le_succ_iff {es : List Expr} {budget : Nat} :
    groupNesting es ≤ budget + 1 ↔ ∀ e ∈ es, e.nesting ≤ budget := by
  induction es with
  | nil => simp [groupNesting]
  | cons e es ih =>
    simp only [groupNesting, List.forall_mem_cons, ← ih]
    omega

end CommandTemplate
