import CommandTemplate.Proofs.Logged
import CommandTemplate.Proofs.Lookahead
import CommandTemplate.Region.Group

namespace CommandTemplate

/-- The problems that are none where the end of the text may cut a call off. -/
def Problem.excused (p : Problem) : Bool :=
  p.code == .closeParenExpected || p.code == .bothParensExpected

namespace Logged

variable {α β : Type} {last : Prop}

/-- The second run is the first with calls allowed to be cut off: names without parentheses go
unreported, and what the first gives up for is accepted. The first gives up for a cut only where
`last` holds. -/
structure Relaxes (last : Prop) (strict lenient : Logged α) : Prop where
  log : lenient.log = strict.log.filter (fun d => d.code ≠ some .bothParensExpected)
  ok : ∀ a, strict.result = .ok a → lenient.result = .ok a
  excused : ∀ p, strict.result = .error p → p.excused = true → last ∧ ∃ a, lenient.result = .ok a
  fatal : ∀ p, strict.result = .error p → p.excused = false → lenient.result = .error p

namespace Relaxes

theorem value (a : α) : Relaxes last (value a) (value a) :=
  ⟨rfl, fun _ h => h, by simp [Logged.value], by simp [Logged.value]⟩

theorem pure (a : α) : Relaxes last (pure a : Logged α) (pure a) :=
  .value a

theorem mono {x y : Logged α} {p : Prop} (h : Relaxes p x y) (hp : p → last) : Relaxes last x y :=
  ⟨h.log, h.ok, fun q hq he => (h.excused q hq he).imp_left hp, h.fatal⟩

theorem problem {p : Problem} {span : Span} (h : p.code ≠ .bothParensExpected) :
    Relaxes last (problem p span) (problem p span) := by
  refine ⟨?_, fun _ h => h, by simp [Logged.problem, report], by simp [Logged.problem, report]⟩
  simp [Logged.problem, report, Diagnostic.ofProblem, h]

theorem mistake {code : Code} {span : Span} (h : code ≠ .bothParensExpected) :
    Relaxes last (mistake code span) (mistake code span) :=
  .problem h

theorem abort {p : Problem} (h : p.excused = false) :
    Relaxes last (abort p : Logged α) (abort p) := by
  refine ⟨rfl, fun _ h => h, ?_, fun _ h _ => h⟩
  rintro q hq he
  cases hq
  simp [h] at he

/-- What comes after a cut must have nothing to say. -/
theorem andThen {p : Prop} {x y : Logged α} {f g : α → Logged β} (hx : Relaxes p x y)
    (hf : ∀ a, Relaxes last (f a) (g a)) (hp : p → last ∧ ∀ a, ∃ b, g a = Logged.value b) :
    Relaxes last (x.andThen f) (y.andThen g) := by
  cases hr : x.result with
  | ok a =>
    have hy := hx.ok a hr
    simp only [Logged.andThen, hr, hy]
    refine ⟨?_, (hf a).ok, (hf a).excused, (hf a).fatal⟩
    simp only [hx.log, (hf a).log, List.filter_append]
  | error q =>
    cases he : q.excused with
    | false =>
      have hy := hx.fatal q hr he
      simp only [Logged.andThen, hr, hy]
      refine ⟨hx.log, by simp, ?_, fun _ h _ => by cases h; rfl⟩
      rintro q' hq' he'
      cases hq'
      simp [he] at he'
    | true =>
      obtain ⟨hlast, a, hy⟩ := hx.excused q hr he
      obtain ⟨hlast, hquiet⟩ := hp hlast
      obtain ⟨b, hb⟩ := hquiet a
      simp only [Logged.andThen, hr, hy, hb]
      refine ⟨by simp [Logged.value, hx.log], by simp, ?_, ?_⟩
      · rintro q' hq' _
        exact ⟨hlast, b, rfl⟩
      · rintro q' hq' he'
        cases hq'
        simp [he] at he'

theorem bind {x y : Logged α} {f g : α → Logged β} (hx : Relaxes False x y)
    (hf : ∀ a, Relaxes last (f a) (g a)) : Relaxes last (x >>= f) (y >>= g) :=
  hx.andThen hf False.elim

/-- The step that may be cut off is the last one. -/
theorem bindLast {p : Prop} {x y : Logged α} {f : α → β} (hx : Relaxes p x y) (hp : p → last) :
    Relaxes last (do let a ← x; Pure.pure (f a)) (do let a ← y; Pure.pure (f a)) :=
  hx.andThen (fun _ => .value _) fun h => ⟨hp h, fun a => ⟨f a, rfl⟩⟩

/-- What the strict run reads in silence is read the same. -/
theorem eq_value {x y : Logged α} (h : Relaxes last x y) {a : α} (hx : x = Logged.value a) :
    y = Logged.value a := by
  subst hx
  exact eq_value_iff.mpr ⟨h.ok a rfl, h.log⟩

end Relaxes

theorem noneUnderstood_relaxes (ts : List Token) :
    Relaxes last (noneUnderstood ts) (noneUnderstood ts) := by
  induction ts with
  | nil => exact .pure ()
  | cons t ts ih => exact .bind (.problem (by simp [Problem.code])) fun _ => ih

end Logged

open Logged

section

variable {last : Prop}

theorem Edge.missing_relaxes (e : Edge) {p : Problem} (h : p.excused = false) :
    Relaxes last (e.missing p) (e.missing p) := by
  cases e with
  | inputEnd length => exact .abort h
  | before offset =>
    refine .problem fun hc => ?_
    simp [Problem.excused, hc] at h

theorem notBound_relaxes (hyphenFollows : Bool) (t : Token) :
    Relaxes last (notBound hyphenFollows t) (notBound hyphenFollows t) :=
  .bind (.mistake (by cases hyphenFollows <;> simp)) fun _ => .pure none

theorem parseBound_relaxes (hyphenFollows : Bool) (t : Token) :
    Relaxes last (parseBound hyphenFollows t) (parseBound hyphenFollows t) := by
  unfold parseBound
  split
  next => exact .bind (.mistake (by simp)) fun _ => .pure none
  next => exact .pure _
  next =>
    split
    next => exact notBound_relaxes hyphenFollows t
    split
    next => exact .bind (.mistake (by simp)) fun _ => .pure none
    next => exact .pure _
  next => exact notBound_relaxes hyphenFollows t

theorem parseHyphen_relaxes (t : Token) : Relaxes last (parseHyphen t) (parseHyphen t) := by
  unfold parseHyphen
  split
  next => exact .pure true
  next => exact .bind (.mistake (by simp)) fun _ => .pure false

theorem parseBody_relaxes (ts : List Token) : Relaxes last (parseBody ts) (parseBody ts) := by
  match ts with
  | [] => exact .pure none
  | [a] => exact .bind (parseBound_relaxes _ a) fun _ => .pure _
  | [a, h] =>
    refine .bind (parseBound_relaxes _ a) fun _ => ?_
    exact .bind (parseHyphen_relaxes h) fun _ => .pure _
  | a :: h :: b :: extra =>
    refine .bind (parseBound_relaxes _ a) fun _ => ?_
    refine .bind (parseHyphen_relaxes h) fun _ => ?_
    refine .bind (parseBound_relaxes _ b) fun _ => ?_
    exact .bind (noneUnderstood_relaxes extra) fun _ => .pure _

theorem parseClosedBody_relaxes (start : Nat) (inner : List Token) (terminator : Token) :
    Relaxes last (parseClosedBody start inner terminator)
      (parseClosedBody start inner terminator) := by
  let checked (s : Substitution) : Logged (Option Substitution) :=
    if s.reversed then do
      mistake .reversedRange ⟨start, terminator.stop - start⟩
      pure none
    else pure (some s)
  have hchecked : ∀ s, Relaxes last (checked s) (checked s) := by
    intro s
    simp only [checked]
    split
    next => exact .bind (.mistake (by simp)) fun _ => .pure none
    next => exact .pure (some s)
  unfold parseClosedBody
  split
  next =>
    refine .bind (.mistake (by simp)) fun _ => .bind (parseBody_relaxes inner) fun o => ?_
    cases o with
    | none => exact .pure none
    | some s => exact hchecked s
  next =>
    refine .bind (parseBody_relaxes inner) fun o => ?_
    cases o with
    | none => exact .pure none
    | some s => exact hchecked s

theorem parseUnclosedBody_relaxes (marker : Marker) (edge : Edge) (inner : List Token) :
    Relaxes last (parseUnclosedBody marker edge inner) (parseUnclosedBody marker edge inner) := by
  refine .bind (parseBody_relaxes inner) fun _ => ?_
  exact .bind (edge.missing_relaxes rfl) fun _ => .pure none

end

/-- One construct with and without the leniency: the same tokens are left, and a cut leaves none
of the text. -/
structure Parsed.Relaxes (edge : Edge) (strict lenient : Parsed) : Prop where
  rest : lenient.rest = strict.rest
  outcome : Logged.Relaxes (edge.isInputEnd = true ∧ strict.rest = []) strict.outcome
    lenient.outcome

theorem parseImperative_relaxes (edge : Edge) (start : Nat) (ts : List Token) :
    (parseImperative edge start ts).Relaxes edge (parseImperative edge start ts) := by
  refine ⟨rfl, ?_⟩
  unfold parseImperative
  dsimp only
  split
  next => exact parseUnclosedBody_relaxes _ _ _
  next => exact .bind (parseClosedBody_relaxes _ _ _) fun _ => .pure _

/-- A reader of groups, and the one that allows for cuts. -/
def RelaxesGroups (strict lenient : GroupReader) : Prop :=
  ∀ r, Relaxes (r.edge.isInputEnd = true) (strict r) (lenient r)

section

variable {strict lenient : GroupReader}

/-- Inside the text no group is cut off. -/
theorem RelaxesGroups.inner (hg : RelaxesGroups strict lenient) (ts : List Token) (offset : Nat) :
    Relaxes False (strict ⟨ts, .before offset⟩) (lenient ⟨ts, .before offset⟩) :=
  (hg ⟨ts, .before offset⟩).mono (by simp [Edge.isInputEnd])

theorem parseDefaultEnd_relaxes (edge : Edge) {x y : Logged Expr} (h : Relaxes False x y)
    (ts : List Token) : (parseDefaultEnd edge x ts).Relaxes edge (parseDefaultEnd edge y ts) := by
  cases ts with
  | nil => exact ⟨rfl, .bind h fun _ => .bind (.mistake (by simp)) fun _ => .pure none⟩
  | cons t ts =>
    simp only [parseDefaultEnd]
    split
    next => exact ⟨rfl, .bind h fun _ => .pure _⟩
    next => exact ⟨rfl, .bind h fun _ => .bind (.mistake (by simp)) fun _ => .pure none⟩

theorem skipDefault_relaxes (edge : Edge) (colon : Token) (ts : List Token) :
    (skipDefault edge colon ts).Relaxes edge (skipDefault edge colon ts) := by
  refine ⟨rfl, ?_⟩
  unfold skipDefault
  dsimp only
  split
  next =>
    refine .bind (.mistake (by simp)) fun _ => .bind (noneUnderstood_relaxes _) fun _ => ?_
    exact .bind (edge.missing_relaxes rfl) fun _ => .pure none
  next =>
    exact .bind (.mistake (by simp)) fun _ => .bind (noneUnderstood_relaxes _) fun _ => .pure none

theorem parseDefault_relaxes (hg : RelaxesGroups strict lenient) (edge : Edge) (colon : Token)
    (ts : List Token) :
    (parseDefault strict edge colon ts).Relaxes edge (parseDefault lenient edge colon ts) := by
  cases ts with
  | nil => exact ⟨rfl, .bind (.mistake (by simp)) fun _ => .pure none⟩
  | cons t ts =>
    simp only [parseDefault]
    split
    next => exact parseDefaultEnd_relaxes edge (.pure _) ts
    next =>
      split
      next =>
        refine ⟨rfl, .bind (.mistake (by simp)) fun _ => ?_⟩
        exact (hg ⟨takeEnclosed 0 ts, edge⟩).bindLast fun h => ⟨h, rfl⟩
      next => exact parseDefaultEnd_relaxes edge (.bind (hg.inner _ _) fun _ => .pure _) _
    next => exact skipDefault_relaxes edge colon (t :: ts)

theorem parseOptional_relaxes (hg : RelaxesGroups strict lenient) (edge : Edge) (start : Nat)
    (ts : List Token) :
    (parseOptional strict edge start ts).Relaxes edge (parseOptional lenient edge start ts) := by
  unfold parseOptional
  dsimp only
  split
  next => exact ⟨rfl, parseUnclosedBody_relaxes _ _ _⟩
  next terminator rest _ =>
    split
    next =>
      have hd := parseDefault_relaxes hg edge terminator rest
      refine ⟨hd.rest, .bind (parseClosedBody_relaxes _ _ _) fun s => ?_⟩
      refine hd.outcome.andThen (fun o => ?_) fun h => ⟨h, fun o => ?_⟩
      · cases o <;> exact .pure _
      · cases o <;> exact ⟨_, rfl⟩
    next => exact ⟨rfl, .bind (parseClosedBody_relaxes _ _ _) fun _ => .pure _⟩

/-- Of the parts between commas only the last can reach the end of the text. -/
theorem cutAtCommas_pairwise (edge : Edge) (depth : Nat) (ts : List Token) :
    ((cutAtCommas edge depth ts).1 :: (cutAtCommas edge depth ts).2).Pairwise
      (fun r _ => r.edge.isInputEnd = false) := by
  induction ts generalizing depth with
  | nil => simp [cutAtCommas]
  | cons t ts ih =>
    simp only [cutAtCommas]
    split
    next => exact .cons (fun _ _ => rfl) (ih 0)
    next =>
      obtain ⟨hfirst, hlater⟩ := List.pairwise_cons.mp (ih (t.depthAfter depth))
      exact .cons hfirst hlater

theorem cutAtCommas_isInputEnd {edge : Edge} {depth : Nat} {ts : List Token} :
    ∀ r ∈ (cutAtCommas edge depth ts).1 :: (cutAtCommas edge depth ts).2,
      r.edge.isInputEnd = true → edge.isInputEnd = true := by
  intro r hr hend
  rcases cutAtCommas_edge r hr with he | ⟨comma, _, he⟩
  · rwa [he] at hend
  · rw [he] at hend
    cases hend

theorem parseArguments_relaxes (hg : RelaxesGroups strict lenient) {last : Prop} (closed : Bool)
    {parts : List Region} (hp : parts.Pairwise (fun r _ => r.edge.isInputEnd = false))
    (hlast : ∀ r ∈ parts, r.edge.isInputEnd = true → last) :
    Relaxes last (parseArguments strict closed parts) (parseArguments lenient closed parts) := by
  induction parts with
  | nil => exact .pure []
  | cons r parts ih =>
    obtain ⟨hfirst, hlater⟩ := List.pairwise_cons.mp hp
    have hparts := ih hlater fun r hr => hlast r (List.mem_cons_of_mem _ hr)
    simp only [parseArguments]
    split
    next =>
      split
      next => exact .pure []
      next => exact .bind (.mistake (by simp)) fun _ => hparts
    next =>
      -- A part that is cut off has no other behind it.
      refine (hg r).andThen (fun a => hparts.bindLast id) fun hend => ?_
      refine ⟨hlast r (List.mem_cons_self ..) hend, fun a => ?_⟩
      cases parts with
      | nil => exact ⟨[a], rfl⟩
      | cons s parts => simp [hfirst s (List.mem_cons_self ..)] at hend

theorem parseArgumentList_relaxes (hg : RelaxesGroups strict lenient) (closed : Bool)
    (r : Region) :
    Relaxes (r.edge.isInputEnd = true) (parseArgumentList strict closed r)
      (parseArgumentList lenient closed r) := by
  unfold parseArgumentList
  split
  next => exact .pure []
  next => exact parseArguments_relaxes hg closed (cutAtCommas_pairwise _ _ _) cutAtCommas_isInputEnd

theorem parseOpenCall_relaxes (hg : RelaxesGroups strict lenient) (edge : Edge) (name : String)
    (ts : List Token) :
    (parseOpenCall false strict edge name ts).Relaxes edge
      (parseOpenCall true lenient edge name ts) := by
  unfold parseOpenCall
  dsimp only
  split
  next =>
    have hargs := parseArgumentList_relaxes hg false ⟨takeEnclosed 0 ts, edge⟩
    cases edge with
    | before offset =>
      refine ⟨rfl, hargs.andThen (fun as => ?_) (by simp [Edge.isInputEnd])⟩
      exact .bind (.problem (by simp [Problem.code])) fun _ => .pure _
    | inputEnd length =>
      -- The strict run gives up here at the latest, the lenient one is through.
      refine ⟨rfl, hargs.andThen (fun as => ?_) fun _ => ⟨⟨rfl, rfl⟩, fun as => ⟨_, rfl⟩⟩⟩
      refine ⟨rfl, fun a h => (by cases h), fun p _ _ => ⟨⟨rfl, rfl⟩, _, rfl⟩, ?_⟩
      rintro p h he
      cases h
      cases he
  next close rest _ =>
    have hargs := parseArgumentList_relaxes hg true ⟨takeEnclosed 0 ts, .before close.start⟩
    exact ⟨rfl, .bind (hargs.mono (by simp [Edge.isInputEnd])) fun _ => .pure _⟩

theorem parseCall_relaxes (hg : RelaxesGroups strict lenient) (edge : Edge) (name : String)
    (ts : List Token) :
    (parseCall false strict edge name ts).Relaxes edge (parseCall true lenient edge name ts) := by
  cases ts with
  | nil =>
    refine ⟨rfl, ?_⟩
    cases edge with
    | before offset => exact ⟨rfl, fun _ h => h, fun p h => (by cases h), fun p h => (by cases h)⟩
    | inputEnd length =>
      refine ⟨rfl, fun a h => (by cases h), fun p _ _ => ⟨⟨rfl, rfl⟩, _, rfl⟩, ?_⟩
      rintro p h he
      cases h
      cases he
  | cons t ts =>
    simp only [parseCall]
    split
    next => exact parseOpenCall_relaxes hg edge name ts
    next =>
      have hopen := parseOpenCall_relaxes hg edge name (t :: ts)
      exact ⟨hopen.rest, .bind (.mistake (by simp)) fun _ => hopen.outcome⟩

theorem parseAngleGroup_relaxes (hg : RelaxesGroups strict lenient) (edge : Edge)
    (ts : List Token) :
    (parseAngleGroup strict edge ts).Relaxes edge (parseAngleGroup lenient edge ts) := by
  unfold parseAngleGroup
  dsimp only
  split
  next =>
    refine ⟨rfl, .bind (.mistake (by simp)) fun _ => ?_⟩
    exact (hg ⟨takeUntil (·.isPunct .closeAngle) ts, edge⟩).bindLast fun h => ⟨h, rfl⟩
  next => exact ⟨rfl, .bind (hg.inner _ _) fun _ => .pure _⟩

theorem parseExpression_relaxes (hg : RelaxesGroups strict lenient) (edge : Edge) (t : Token)
    (ts : List Token) :
    (parseExpression false strict edge t ts).Relaxes edge
      (parseExpression true lenient edge t ts) := by
  unfold parseExpression
  split
  next => exact ⟨rfl, .pure _⟩
  next name _ => exact parseCall_relaxes hg edge name ts
  next => exact parseAngleGroup_relaxes hg edge ts
  next => exact parseImperative_relaxes edge t.start ts
  next => exact parseOptional_relaxes hg edge t.start ts
  next => exact ⟨rfl, .bind (.problem (by simp [Problem.code])) fun _ => .pure none⟩

theorem parseExpressions_relaxes (hg : RelaxesGroups strict lenient) (edge : Edge)
    (ts : List Token) :
    Relaxes (edge.isInputEnd = true) (parseExpressions false strict edge ts)
      (parseExpressions true lenient edge ts) := by
  match ts with
  | [] =>
    rw [parseExpressions_nil, parseExpressions_nil]
    exact .value []
  | t :: ts =>
    have hlen := (parseExpression_rest_suffix false strict edge t ts).length_le
    have hfirst := parseExpression_relaxes hg edge t ts
    rw [parseExpressions_cons, parseExpressions_cons, hfirst.rest]
    refine hfirst.outcome.andThen (fun e => ?_) fun h => ⟨h.1, fun e => ?_⟩
    · exact (parseExpressions_relaxes hg edge _).bindLast id
    · -- Nothing is left behind a cut.
      rw [h.2, parseExpressions_nil, value_andThen]
      exact ⟨_, rfl⟩
termination_by ts.length

end

theorem parseGroup_relaxes (budget : Nat) :
    RelaxesGroups (parseGroup false budget) (parseGroup true budget) := by
  induction budget with
  | zero => exact fun _ => .abort rfl
  | succ budget ih => exact fun r => parseExpressions_relaxes ih r.edge r.tokens

/-- To allow for calls that the end of the text cuts off takes away the reports of names without
parentheses and the refusal of such calls, and changes nothing else. -/
theorem parseTokens_lenient (tokens : List Token) (length : Nat) :
    (parseTokens true tokens length).log =
        (parseTokens false tokens length).log.filter (fun d => d.code ≠ some .bothParensExpected) ∧
      (∀ g, (parseTokens false tokens length).result = .ok g →
        (parseTokens true tokens length).result = .ok g) ∧
      (∀ p, (parseTokens false tokens length).result = .error p →
        p.code = .closeParenExpected ∨ p.code = .bothParensExpected →
        ∃ g, (parseTokens true tokens length).result = .ok g) ∧
      (∀ p, (parseTokens false tokens length).result = .error p →
        p.code ≠ .closeParenExpected → p.code ≠ .bothParensExpected →
        (parseTokens true tokens length).result = .error p) := by
  have h := parseGroup_relaxes maxNesting ⟨tokens, .inputEnd length⟩
  refine ⟨h.log, h.ok, ?_, ?_⟩
  · intro p hp hc
    exact (h.excused p hp (by simpa [Problem.excused] using hc)).2
  · intro p hp hclose hboth
    exact h.fatal p hp (by simp [Problem.excused, hclose, hboth])

end CommandTemplate
