namespace CommandTemplate

/-- Which arguments a substitution stands for. An absent bound is open: all arguments where
`singular` holds, the last argument at the end of a range. -/
structure Substitution where
  first : Option Nat
  last : Option Nat
  singular : Bool
deriving DecidableEq

namespace Substitution

/-- One argument, or all of them. -/
def single (number : Option Nat) : Substitution :=
  ⟨number, none, true⟩

/-- The arguments from `first` to `last`, or to the end. -/
def range (first : Nat) (last : Option Nat) : Substitution :=
  ⟨some first, last, false⟩

/-- Whether a range starts after its end. -/
def reversed (s : Substitution) : Bool :=
  match s.singular, s.first, s.last with
  | false, some first, some last => last < first
  | _, _, _ => false

end Substitution

/-- Template expressions. A group of expressions is a list of them. -/
inductive Expr
  | literal (text : String)
  | identifier (name : String)
  | group (expressions : List Expr)
  | call (name : String) (arguments : List (List Expr))
  | imperative (substitution : Substitution)
  | optional (substitution : Substitution) (defaultValue : Option Expr)

namespace Expr

mutual

/-- Whether two expressions are equal. -/
def same : Expr → Expr → Bool
  | .literal s, .literal t => s == t
  | .identifier s, .identifier t => s == t
  | .group es, .group fs => sameGroup es fs
  | .call m as, .call n bs => m == n && sameArguments as bs
  | .imperative s, .imperative t => s == t
  | .optional s d, .optional t e => s == t && sameDefault d e
  | _, _ => false

/-- Whether two groups are equal. -/
def sameGroup : List Expr → List Expr → Bool
  | [], [] => true
  | e :: es, f :: fs => same e f && sameGroup es fs
  | _, _ => false

/-- Whether two argument lists are equal. -/
def sameArguments : List (List Expr) → List (List Expr) → Bool
  | [], [] => true
  | a :: as, b :: bs => sameGroup a b && sameArguments as bs
  | _, _ => false

/-- Whether two defaults are equal. -/
def sameDefault : Option Expr → Option Expr → Bool
  | none, none => true
  | some d, some e => same d e
  | _, _ => false

end

mutual

theorem same_iff (e f : Expr) : same e f = true ↔ e = f := by
  match e with
  | .literal s => cases f <;> simp [same]
  | .identifier s => cases f <;> simp [same]
  | .group es =>
    cases f with
    | group fs => simp [same, sameGroup_iff es fs]
    | _ => simp [same]
  | .call m as =>
    cases f with
    | call n bs => simp [same, sameArguments_iff as bs]
    | _ => simp [same]
  | .imperative s => cases f <;> simp [same]
  | .optional s d =>
    cases f with
    | optional t d' => simp [same, sameDefault_iff d d']
    | _ => simp [same]
termination_by structural e

theorem sameGroup_iff (es fs : List Expr) : sameGroup es fs = true ↔ es = fs := by
  match es, fs with
  | [], [] => simp [sameGroup]
  | [], _ :: _ => simp [sameGroup]
  | _ :: _, [] => simp [sameGroup]
  | e :: es, f :: fs => simp [sameGroup, same_iff e f, sameGroup_iff es fs]
termination_by structural es

theorem sameArguments_iff (as bs : List (List Expr)) : sameArguments as bs = true ↔ as = bs := by
  match as, bs with
  | [], [] => simp [sameArguments]
  | [], _ :: _ => simp [sameArguments]
  | _ :: _, [] => simp [sameArguments]
  | a :: as, b :: bs => simp [sameArguments, sameGroup_iff a b, sameArguments_iff as bs]
termination_by structural as

theorem sameDefault_iff (d e : Option Expr) : sameDefault d e = true ↔ d = e := by
  match d, e with
  | none, none => simp [sameDefault]
  | none, some _ => simp [sameDefault]
  | some _, none => simp [sameDefault]
  | some d, some e => simp [sameDefault, same_iff d e]
termination_by structural d

end

instance : DecidableEq Expr :=
  fun e f => decidable_of_iff _ (same_iff e f)

end Expr

end CommandTemplate
