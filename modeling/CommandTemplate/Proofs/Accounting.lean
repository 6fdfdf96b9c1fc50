import CommandTemplate.Proofs.Logged
import CommandTemplate.Proofs.Lookahead
import CommandTemplate.Proofs.WellFormed

namespace CommandTemplate

namespace Logged

variable {α β : Type}

/-- The computation goes on with `a`, and says nothing exactly if `quiet` holds. -/
structure Settles (x : Logged α) (a : α) (quiet : Prop) : Prop where
  result : x.result = .ok a
  log : x.log = [] ↔ quiet

namespace Settles

theorem pure (a : α) : (pure a : Logged α).Settles a True :=
  ⟨rfl, by simp [pure_def, value]⟩

theorem problem (p : Problem) (span : Span) : (problem p span).Settles () False :=
  ⟨rfl, by simp [Logged.problem, report]⟩

theorem bind {x : Logged α} {f : α → Logged β} {a : α} {b : β} {p q : Prop} (hx : x.Settles a p)
    (hf : (f a).Settles b q) : (x >>= f).Settles b (p ∧ q) := by
  constructor
  · simp only [bind_def, andThen, hx.result, hf.result]
  · simp only [bind_def, andThen, hx.result, List.append_eq_nil_iff, hx.log, hf.log]

theorem congr {x : Logged α} {a : α} {p q : Prop} (hx : x.Settles a p) (h : p ↔ q) :
    x.Settles a q :=
  ⟨hx.result, hx.log.trans h⟩

end Settles

/-- Whatever the computation yields, `inner` is part of what it reports, and is all of it exactly
if the value is `good`. -/
def Accounts (good : α → Prop) (inner : List Diagnostic) (x : Logged α) : Prop :=
  ∀ a, x.result = .ok a → inner <:+: x.log ∧ (good a ↔ x.log = inner)

theorem Settles.accounts {good : α → Prop} {x : Logged α} {a : α} (h : x.Settles a (good a)) :
    x.Accounts good [] := by
  intro b hb
  cases h.result.symm.trans hb
  exact ⟨List.nil_infix, h.log.symm⟩

theorem Accounts.map {x : Logged α} {f : α → β} {good : α → Prop} {kept : β → Prop}
    {inner : List Diagnostic} (h : x.Accounts good inner) (hkept : ∀ a, good a ↔ kept (f a)) :
    (x >>= fun a => Pure.pure (f a)).Accounts kept inner := by
  intro b hb
  have hx : (x >>= fun a => Pure.pure (f a)) = ⟨x.log, x.result.map f⟩ := andThen_map x f
  rw [hx] at hb ⊢
  cases hr : x.result with
  | error p => simp [hr, Except.map] at hb
  | ok a =>
    have hfa : f a = b := by simpa [hr, Except.map] using hb
    obtain ⟨hinner, hiff⟩ := h a hr
    exact ⟨hinner, by rw [← hfa, ← hkept a, hiff]⟩

theorem append_eq_inner_iff {front later inner : List Diagnostic} (h : inner <:+: later) :
    front ++ later = inner ↔ front = [] ∧ later = inner := by
  constructor
  · intro happend
    have hlen := h.length_le
    have htotal := congrArg List.length happend
    rw [List.length_append] at htotal
    have hnil : front = [] := List.eq_nil_of_length_eq_zero (by omega)
    exact ⟨hnil, by simpa [hnil] using happend⟩
  · rintro ⟨rfl, rfl⟩
    rfl

/-- What is said before is not part of `inner`. -/
theorem Settles.bindAccounts {x : Logged α} {f : α → Logged β} {a : α} {quiet : Prop}
    {good kept : β → Prop} {inner : List Diagnostic} (hx : x.Settles a quiet)
    (hf : (f a).Accounts good inner) (hkept : (f a).Yields fun b => (quiet ∧ good b ↔ kept b)) :
    (x >>= f).Accounts kept inner := by
  have hbind : x >>= f = ⟨x.log ++ (f a).log, (f a).result⟩ := by
    simp only [bind_def, andThen, hx.result]
  rw [hbind]
  intro b hb
  obtain ⟨hinner, hiff⟩ := hf b hb
  refine ⟨hinner.trans (List.suffix_append _ _).isInfix, ?_⟩
  rw [append_eq_inner_iff hinner, hx.log, ← hiff]
  exact (hkept b hb).symm

/-- What a first step reports is accounted for by what comes after it. -/
theorem accounts_of_settles {x : Logged α} {f : α → Logged β} {g : α → β} {quiet : Prop}
    {kept : β → Prop} (hf : ∀ a, (f a).Settles (g a) quiet) (hkept : ∀ a, kept (g a) ↔ quiet) :
    (x >>= f).Accounts kept x.log := by
  intro b hb
  cases hx : x.result with
  | error p =>
    simp only [bind_def, andThen, hx] at hb
    cases hb
  | ok a =>
    have hbind : x >>= f = ⟨x.log ++ (f a).log, (f a).result⟩ := by
      simp only [bind_def, andThen, hx]
    rw [hbind] at hb ⊢
    obtain rfl : g a = b := Except.ok.inj ((hf a).result.symm.trans hb)
    exact ⟨(List.prefix_append _ _).isInfix, by simp [(hf a).log, hkept]⟩

end Logged

open Logged

theorem notBound_settles (hyphenFollows : Bool) (t : Token) :
    (notBound hyphenFollows t).Settles none False :=
  ((Settles.problem _ _).bind (.pure none)).congr (by simp)

theorem parseBound_settles (hyphenFollows : Bool) (t : Token) :
    ∃ bound, (parseBound hyphenFollows t).Settles bound (bound.isSome = true) := by
  unfold parseBound
  split
  next => exact ⟨none, ((Settles.problem _ _).bind (.pure none)).congr (by simp)⟩
  next => exact ⟨_, (Settles.pure _).congr (by simp)⟩
  next =>
    split
    next => exact ⟨none, (notBound_settles hyphenFollows t).congr (by simp)⟩
    split
    next => exact ⟨none, ((Settles.problem _ _).bind (.pure none)).congr (by simp)⟩
    next => exact ⟨some none, (Settles.pure _).congr (by simp)⟩
  next => exact ⟨none, (notBound_settles hyphenFollows t).congr (by simp)⟩

theorem parseHyphen_settles (t : Token) :
    ∃ hyphen, (parseHyphen t).Settles hyphen (hyphen = true) := by
  unfold parseHyphen
  split
  next => exact ⟨true, (Settles.pure true).congr (by simp)⟩
  next => exact ⟨false, ((Settles.problem _ _).bind (.pure false)).congr (by simp)⟩

theorem noneUnderstood_settles (ts : List Token) :
    (noneUnderstood ts).Settles () (ts.isEmpty = true) := by
  induction ts with
  | nil => exact (Settles.pure ()).congr (by simp)
  | cons t ts ih => exact ((Settles.problem _ _).bind ih).congr (by simp)

theorem rangeOf_isSome_iff {hyphen : Bool} {first last : Option (Option Nat)} :
    (rangeOf hyphen first last).isSome = true ↔
      first.isSome = true ∧ hyphen = true ∧ last.isSome = true := by
  cases hyphen <;> cases first <;> cases last <;> simp [rangeOf]

/-- A body comes to something exactly if nothing is said about it. -/
theorem parseBody_settles {inner : List Token} (h : inner ≠ []) :
    ∃ s, (parseBody inner).Settles s (s.isSome = true) := by
  match inner with
  | [] => exact absurd rfl h
  | [a] =>
    obtain ⟨number, hnumber⟩ := parseBound_settles false a
    exact ⟨number.map .single, .congr (.bind hnumber (.pure _)) (by simp)⟩
  | [a, b] =>
    obtain ⟨first, hfirst⟩ := parseBound_settles (b.isPunct .hyphen) a
    obtain ⟨hyphen, hhyphen⟩ := parseHyphen_settles b
    refine ⟨rangeOf hyphen first (some none), .congr (.bind hfirst (.bind hhyphen (.pure _))) ?_⟩
    simp [rangeOf_isSome_iff]
  | a :: b :: c :: extra =>
    obtain ⟨first, hfirst⟩ := parseBound_settles (b.isPunct .hyphen) a
    obtain ⟨hyphen, hhyphen⟩ := parseHyphen_settles b
    obtain ⟨last, hlast⟩ := parseBound_settles false c
    have hextra := noneUnderstood_settles extra
    refine ⟨if extra.isEmpty then rangeOf hyphen first last else none,
      .congr (.bind hfirst (.bind hhyphen (.bind hlast (.bind hextra (.pure _))))) ?_⟩
    cases extra.isEmpty with
    | true => simp [rangeOf_isSome_iff]
    | false => simp

theorem parseClosedBody_settles (start : Nat) (inner : List Token) (terminator : Token) :
    ∃ s, (parseClosedBody start inner terminator).Settles s (s.isSome = true) := by
  unfold parseClosedBody
  cases inner with
  | nil =>
    exact ⟨none, .congr (.bind (.problem _ _) (.bind (.pure none) (.pure none))) (by simp)⟩
  | cons t ts =>
    obtain ⟨s, hs⟩ := parseBody_settles (List.cons_ne_nil t ts)
    cases s with
    | none => exact ⟨none, .congr (.bind hs (.pure none)) (by simp)⟩
    | some s =>
      have hcheck : (if s.reversed then do
          mistake .reversedRange ⟨start, terminator.stop - start⟩
          pure none
        else pure (some s) : Logged (Option Substitution)).Settles
          (if s.reversed then none else some s) (s.reversed = false) := by
        split
        next hr => exact .congr (.bind (.problem _ _) (.pure none)) (by simp [hr])
        next hr => exact .congr (.pure _) (by simpa using hr)
      refine ⟨if s.reversed then none else some s, .congr (.bind hs hcheck) ?_⟩
      cases s.reversed <;> simp

theorem Edge.missing_accounts (e : Edge) (p : Problem) :
    (e.missing p).Accounts (fun _ => False) [] := by
  cases e with
  | inputEnd length =>
    intro a ha
    cases ha
  | before offset => exact Settles.accounts (a := ()) (.problem _ _)

theorem parseUnclosedBody_accounts {good : Option Expr → Prop} (hgood : ¬ good none)
    (marker : Marker) (edge : Edge) (inner : List Token) :
    (parseUnclosedBody marker edge inner).Accounts good [] := by
  have hbody : ∃ s quiet, (parseBody inner).Settles s quiet := by
    cases inner with
    | nil => exact ⟨none, True, .pure none⟩
    | cons t ts =>
      obtain ⟨s, hs⟩ := parseBody_settles (List.cons_ne_nil t ts)
      exact ⟨s, _, hs⟩
  obtain ⟨s, quiet, hs⟩ := hbody
  have hmissing : (do
      edge.missing (.unclosed marker)
      pure none).Accounts good [] :=
    (edge.missing_accounts (.unclosed marker)).map (by simp [hgood])
  exact hs.bindAccounts hmissing (.after fun _ => .pure (by simp [hgood]))

theorem parseImperative_accounts (edge : Edge) (start : Nat) (ts : List Token) :
    (parseImperative edge start ts).outcome.Accounts
      (fun o => ∃ s, o = some (.imperative s)) [] := by
  unfold parseImperative
  dsimp only
  split
  next => exact parseUnclosedBody_accounts (by simp) .imperative edge _
  next terminator rest _ =>
    obtain ⟨s, hs⟩ :=
      parseClosedBody_settles start (takeUntil Marker.imperative.endsBody ts) terminator
    refine Settles.accounts (a := s.map .imperative) (.congr (.bind hs (.pure _)) ?_)
    cases s <;> simp

/-- The tokens in the parentheses of a default. `ts` follows the colon. -/
def defaultContents (edge : Edge) : List Token → Option Region
  | [] => none
  | t :: ts =>
    if t.isPunct .openParen then
      match dropEnclosed 0 ts with
      | [] => some ⟨takeEnclosed 0 ts, edge⟩
      | close :: _ => some ⟨takeEnclosed 0 ts, .before close.start⟩
    else none

/-- The tokens in the parentheses of the default of a substitution. `ts` follows its marker. -/
def optionalContents (edge : Edge) (ts : List Token) : Option Region :=
  match dropUntil Marker.optional.endsBody ts with
  | [] => none
  | terminator :: rest => if terminator.isPunct .colon then defaultContents edge rest else none

/-- What is reported about those tokens. -/
def contentsLog (group : GroupReader) : Option Region → List Diagnostic
  | none => []
  | some r => (group r).log

theorem parseDefaultEnd_accounts (edge : Edge) (value : Logged Expr) (ts : List Token) :
    (parseDefaultEnd edge value ts).outcome.Accounts (·.isSome = true) value.log := by
  have hdropped : ∀ span, (do
      let _ ← value
      mistake .questionMarkExpected span
      pure none : Logged (Option Expr)).Accounts (·.isSome = true) value.log := by
    intro span
    exact accounts_of_settles (fun _ => .bind (.problem _ _) (.pure none)) (by simp)
  cases ts with
  | nil => exact hdropped _
  | cons t ts =>
    simp only [parseDefaultEnd]
    split
    next => exact accounts_of_settles (fun e => .pure (some e)) (by simp)
    next => exact hdropped _

theorem skipDefault_accounts (edge : Edge) (colon : Token) (ts : List Token) :
    (skipDefault edge colon ts).outcome.Accounts (·.isSome = true) [] := by
  have hskip := noneUnderstood_settles (takeUntil (·.isPunct .question) ts)
  unfold skipDefault
  dsimp only
  split
  next =>
    have hmissing : (do
        edge.missing (.general .questionMarkExpected)
        pure none : Logged (Option Expr)).Accounts (·.isSome = true) [] :=
      (edge.missing_accounts _).map (by simp)
    have hrest : (do
        noneUnderstood (takeUntil (·.isPunct .question) ts)
        edge.missing (.general .questionMarkExpected)
        pure none : Logged (Option Expr)).Accounts (·.isSome = true) [] :=
      hskip.bindAccounts hmissing (.after fun _ => .pure (by simp))
    exact Settles.bindAccounts (.problem _ _) hrest
      (.after fun _ => .after fun _ => .pure (by simp))
  next =>
    have hsettles : (do
        mistake .expressionExpected (.place colon.stop)
        noneUnderstood (takeUntil (·.isPunct .question) ts)
        pure none : Logged (Option Expr)).Settles none False :=
      .congr (.bind (.problem _ _) (.bind hskip (.pure none))) (by simp)
    exact (hsettles.congr (by simp)).accounts

theorem parseDefault_accounts (group : GroupReader) (edge : Edge) (colon : Token)
    (ts : List Token) :
    (parseDefault group edge colon ts).outcome.Accounts (·.isSome = true)
      (contentsLog group (defaultContents edge ts)) := by
  cases ts with
  | nil =>
    have hsettles : (parseDefault group edge colon []).outcome.Settles none False :=
      .congr (.bind (.problem _ _) (.pure none)) (by simp)
    exact (hsettles.congr (by simp)).accounts
  | cons t ts =>
    by_cases ho : t.value = .punct .openParen
    · have hopen : t.isPunct .openParen = true := Token.isPunct_iff.mpr ho
      simp only [parseDefault, ho, defaultContents, hopen, if_true]
      cases dropEnclosed 0 ts with
      | nil =>
        have hgroup : (do
            let _ ← group ⟨takeEnclosed 0 ts, edge⟩
            pure none : Logged (Option Expr)).Accounts (fun _ => True)
              (group ⟨takeEnclosed 0 ts, edge⟩).log :=
          accounts_of_settles (fun _ => .pure none) (by simp)
        exact Settles.bindAccounts (.problem _ _) hgroup (.after fun _ => .pure (by simp))
      | cons close rest =>
        have hend := parseDefaultEnd_accounts edge (do
          let es ← group ⟨takeEnclosed 0 ts, .before close.start⟩
          pure (.group es)) rest
        have hlog : (do
            let es ← group ⟨takeEnclosed 0 ts, .before close.start⟩
            pure (.group es) : Logged Expr).log =
              (group ⟨takeEnclosed 0 ts, .before close.start⟩).log :=
          congrArg Logged.log (andThen_map _ _)
        rw [hlog] at hend
        exact hend
    · have hopen : t.isPunct .openParen = false := by simpa [Token.isPunct] using ho
      simp only [defaultContents, hopen, Bool.false_eq_true, if_false]
      simp only [parseDefault]
      split
      next => exact parseDefaultEnd_accounts edge _ ts
      next hv => exact absurd hv ho
      next => exact skipDefault_accounts edge colon (t :: ts)

theorem parseOptional_accounts (group : GroupReader) (edge : Edge) (start : Nat)
    (ts : List Token) :
    (parseOptional group edge start ts).outcome.Accounts
      (fun o => ∃ s d, o = some (.optional s d))
      (contentsLog group (optionalContents edge ts)) := by
  unfold parseOptional optionalContents
  dsimp only
  cases dropUntil Marker.optional.endsBody ts with
  | nil => exact parseUnclosedBody_accounts (by simp) .optional edge _
  | cons terminator rest =>
    obtain ⟨s, hs⟩ :=
      parseClosedBody_settles start (takeUntil Marker.optional.endsBody ts) terminator
    cases hcolon : terminator.isPunct .colon with
    | false =>
      have hsettles : (do
          let s ← parseClosedBody start (takeUntil Marker.optional.endsBody ts) terminator
          pure (s.map (.optional · none)) : Logged (Option Expr)).Settles
            (s.map (.optional · none)) (s.isSome = true) :=
        .congr (.bind hs (.pure _)) (by simp)
      dsimp only
      rw [if_neg (by simp [hcolon]), if_neg (by simp [hcolon])]
      refine (hsettles.congr ?_).accounts
      cases s <;> simp
    | true =>
      have hdefault := parseDefault_accounts group edge terminator rest
      dsimp only
      rw [if_pos hcolon, if_pos hcolon]
      intro o ho
      cases hd : (parseDefault group edge terminator rest).outcome.result with
      | error p =>
        simp only [bind_def, andThen, hs.result, hd] at ho
        cases ho
      | ok d =>
        obtain ⟨hinner, hiff⟩ := hdefault d hd
        -- The body may say nothing at all, and the default no more than its group does.
        have hboth : contentsLog group (defaultContents edge rest) <:+:
              (parseClosedBody start (takeUntil Marker.optional.endsBody ts) terminator).log ++
                (parseDefault group edge terminator rest).outcome.log ∧
            ((s.isSome = true ∧ d.isSome = true) ↔
              (parseClosedBody start (takeUntil Marker.optional.endsBody ts) terminator).log ++
                (parseDefault group edge terminator rest).outcome.log =
                  contentsLog group (defaultContents edge rest)) := by
          refine ⟨hinner.trans (List.suffix_append _ _).isInfix, ?_⟩
          rw [append_eq_inner_iff hinner, hs.log, ← hiff]
        simp only [bind_def, andThen, hs.result, hd] at ho ⊢
        cases d with
        | none =>
          cases ho
          simpa [pure_def, value] using hboth
        | some e =>
          cases ho
          cases s <;> simpa [pure_def, value] using hboth

theorem parseCall_yields_some (lenient : Bool) (group : GroupReader) (edge : Edge) (name : String)
    (ts : List Token) : (parseCall lenient group edge name ts).outcome.Yields (· ≠ none) := by
  have hopen : ∀ ts, (parseOpenCall lenient group edge name ts).outcome.Yields (· ≠ none) := by
    intro ts
    unfold parseOpenCall
    dsimp only
    split
    next =>
      refine .after fun _ => ?_
      split
      next => exact .after fun _ => .pure (by simp)
      next => exact .pure (by simp)
    next => exact .after fun _ => .pure (by simp)
  cases ts with
  | nil =>
    simp only [parseCall]
    split
    next => exact .after fun _ => .pure (by simp)
    next => exact .pure (by simp)
  | cons t ts =>
    simp only [parseCall]
    split
    next => exact hopen ts
    next => exact .after fun _ => hopen (t :: ts)

theorem parseAngleGroup_yields_some (group : GroupReader) (edge : Edge) (ts : List Token) :
    (parseAngleGroup group edge ts).outcome.Yields (· ≠ none) := by
  unfold parseAngleGroup
  dsimp only
  split
  next => exact .after fun _ => .after fun _ => .pure (by simp)
  next => exact .after fun _ => .pure (by simp)

theorem parseExpression_none_log {lenient : Bool} {group : GroupReader} {edge : Edge} {t : Token}
    {ts : List Token} (h : (parseExpression lenient group edge t ts).outcome.result = .ok none) :
    (parseExpression lenient group edge t ts).outcome.log ≠ [] := by
  unfold parseExpression at h ⊢
  split at h
  next => cases h
  next => exact absurd rfl (parseCall_yields_some lenient group edge _ ts none h)
  next => exact absurd rfl (parseAngleGroup_yields_some group edge ts none h)
  next =>
    have hiff := (parseImperative_accounts edge t.start ts none h).2
    simpa using hiff
  next =>
    obtain ⟨hinner, hiff⟩ := parseOptional_accounts group edge t.start ts none h
    intro hlog
    rw [hlog] at hinner hiff
    have hnil := List.infix_nil.mp hinner
    simp [hnil] at hiff
  next => simp [bind_def, andThen, notUnderstood, problem, Logged.report]

/-- Nothing is dropped in silence, and no substitution that was complained about is kept, whatever
reads the groups inside. What the group in the default of a substitution reports is no complaint
about the substitution. -/
theorem parseExpression_accounts (lenient : Bool) (group : GroupReader) (edge : Edge) (t : Token)
    (ts : List Token) {o : Option Expr}
    (h : (parseExpression lenient group edge t ts).outcome.result = .ok o) :
    let log := (parseExpression lenient group edge t ts).outcome.log
    let inner := contentsLog group (optionalContents edge ts)
    (o = none → log ≠ []) ∧
    (t.value = .punct .exclamation → ((∃ s, o = some (.imperative s)) ↔ log = [])) ∧
    (t.value = .punct .question →
      inner <:+: log ∧ ((∃ s d, o = some (.optional s d)) ↔ log = inner)) := by
  intro log inner
  refine ⟨?_, ?_, ?_⟩
  · rintro rfl
    exact parseExpression_none_log h
  · intro hv
    simp only [log, parseExpression, hv] at h ⊢
    exact (parseImperative_accounts edge t.start ts o h).2
  · intro hv
    simp only [log, parseExpression, hv] at h ⊢
    exact parseOptional_accounts group edge t.start ts o h

theorem parseExpression_accounts_default :
    let group := parseGroup false (maxNesting - 1)
    let ts : List Token := [⟨.integer 1, 1, 2⟩, ⟨.punct .colon, 2, 3⟩, ⟨.punct .openParen, 3, 4⟩,
      ⟨.punct .comma, 4, 5⟩, ⟨.punct .closeParen, 5, 6⟩, ⟨.punct .question, 6, 7⟩]
    let parsed := parseExpression false group (.inputEnd 7) ⟨.punct .question, 0, 1⟩ ts
    let inner := contentsLog group (optionalContents (.inputEnd 7) ts)
    parsed.outcome.result = .ok (some (.optional (.single (some 1)) (some (.group [])))) ∧
      inner <:+: parsed.outcome.log ∧
        ((∃ s d, some (Expr.optional (.single (some 1)) (some (.group []))) =
          some (.optional s d)) ↔ parsed.outcome.log = inner) := by
  intro group ts parsed inner
  have h : parsed.outcome.result =
      .ok (some (.optional (.single (some 1)) (some (.group [])))) := by
    simp only [parsed, group, ts]
    cbv
  exact ⟨h, (parseExpression_accounts false group (.inputEnd 7) _ ts h).2.2 rfl⟩

end CommandTemplate
