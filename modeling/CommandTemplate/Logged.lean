import CommandTemplate.Diagnostic

namespace CommandTemplate

/-- A computation that reports diagnostics in order and may give up with a problem. What was
reported before it gave up is kept. -/
structure Logged (α : Type) where
  log : List Diagnostic
  result : Except Problem α

namespace Logged

variable {α β : Type}

/-- A value with nothing to report. -/
def value (a : α) : Logged α :=
  ⟨[], .ok a⟩

/-- Goes on with the value, unless the first part gave up. -/
def andThen (x : Logged α) (f : α → Logged β) : Logged β :=
  match x.result with
  | .error p => ⟨x.log, .error p⟩
  | .ok a =>
    let y := f a
    ⟨x.log ++ y.log, y.result⟩

instance : Monad Logged where
  pure := value
  bind := andThen

/-- Reports a diagnostic. -/
def report (d : Diagnostic) : Logged Unit :=
  ⟨[d], .ok ()⟩

/-- Reports a problem. -/
def problem (p : Problem) (span : Span) : Logged Unit :=
  report (.ofProblem p span)

/-- Reports a problem that its code describes. -/
def mistake (code : Code) (span : Span) : Logged Unit :=
  problem (.general code) span

/-- Gives up. -/
def abort (p : Problem) : Logged α :=
  ⟨[], .error p⟩

/-- Reports a token that has no place where it stands. -/
def notUnderstood (t : Token) : Logged Unit :=
  problem (.notUnderstood t.value) t.span

/-- Reports each of the tokens as out of place. -/
def noneUnderstood : List Token → Logged Unit
  | [] => pure ()
  | t :: ts => do
    notUnderstood t
    noneUnderstood ts

theorem bind_def (x : Logged α) (f : α → Logged β) : x >>= f = x.andThen f := rfl

theorem pure_def (a : α) : (pure a : Logged α) = value a := rfl

theorem value_andThen (a : α) (f : α → Logged β) : (value a).andThen f = f a := by
  simp [andThen, value]

theorem andThen_value (x : Logged α) : x.andThen value = x := by
  cases x with
  | mk log result => cases result <;> simp [andThen, value]

theorem andThen_assoc {γ : Type} (x : Logged α) (f : α → Logged β) (g : β → Logged γ) :
    (x.andThen f).andThen g = x.andThen (fun a => (f a).andThen g) := by
  cases x with
  | mk log result =>
    cases result with
    | error p => simp [andThen]
    | ok a =>
      cases h : (f a).result with
      | error p => simp [andThen, h]
      | ok b => simp [andThen, h]

end Logged

end CommandTemplate
