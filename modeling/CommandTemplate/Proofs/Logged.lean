import CommandTemplate.Region

namespace CommandTemplate

namespace Logged

variable {α β : Type}

theorem andThen_map (x : Logged α) (f : α → β) :
    x.andThen (fun a => value (f a)) = ⟨x.log, x.result.map f⟩ := by
  obtain ⟨log, result⟩ := x
  cases result <;> simp [andThen, value, Except.map]

@[simp] theorem value_inj {a b : α} : value a = value b ↔ a = b := by
  simp [value]

theorem eq_value_iff {x : Logged α} {a : α} : x = value a ↔ x.result = .ok a ∧ x.log = [] := by
  obtain ⟨log, result⟩ := x
  simp [value, and_comm]

/-- A computation in two steps succeeds in silence only if both steps do. -/
theorem andThen_eq_value_iff {x : Logged α} {f : α → Logged β} {b : β} :
    x.andThen f = value b ↔ ∃ a, x = value a ∧ f a = value b := by
  obtain ⟨log, result⟩ := x
  cases result with
  | error p => simp [andThen, value]
  | ok a =>
    cases hf : f a with
    | mk later final =>
      simp only [andThen, value, hf, Logged.mk.injEq, List.append_eq_nil_iff, Except.ok.injEq]
      constructor
      · rintro ⟨⟨hl, hn⟩, hr⟩
        exact ⟨a, ⟨hl, rfl⟩, by rw [hf, hn, hr]⟩
      · rintro ⟨a', ⟨hl, rfl⟩, he⟩
        rw [hf] at he
        cases he
        exact ⟨⟨hl, rfl⟩, rfl⟩

theorem bind_eq_value_iff {x : Logged α} {f : α → Logged β} {b : β} :
    x >>= f = value b ↔ ∃ a, x = value a ∧ f a = value b :=
  andThen_eq_value_iff

@[simp] theorem pure_eq_value_iff {a b : α} : (pure a : Logged α) = value b ↔ a = b :=
  value_inj

@[simp] theorem problem_ne_value (p : Problem) (span : Span) (u : Unit) :
    problem p span ≠ value u := by
  simp [problem, report, value]

@[simp] theorem mistake_ne_value (code : Code) (span : Span) (u : Unit) :
    mistake code span ≠ value u :=
  problem_ne_value _ _ u

@[simp] theorem notUnderstood_ne_value (t : Token) (u : Unit) : notUnderstood t ≠ value u :=
  problem_ne_value _ _ u

@[simp] theorem noneUnderstood_eq_value_iff {ts : List Token} {u : Unit} :
    noneUnderstood ts = value u ↔ ts = [] := by
  cases ts with
  | nil => simp [noneUnderstood]
  | cons t ts => simp [noneUnderstood, bind_eq_value_iff]

@[simp] theorem abort_ne_value (p : Problem) (a : α) : abort p ≠ value a := by
  simp [abort, value]

end Logged

/-- What is missing where a region ends is always reported or fatal. -/
@[simp] theorem Edge.missing_ne_value (e : Edge) (p : Problem) (u : Unit) :
    e.missing p ≠ Logged.value u := by
  cases e with
  | inputEnd length => exact Logged.abort_ne_value p u
  | before offset => exact Logged.problem_ne_value p _ u

end CommandTemplate
