import CommandTemplate.Proofs.Grammar
import CommandTemplate.Proofs.Logged
import CommandTemplate.Proofs.Lookahead

namespace CommandTemplate

open Logged

theorem parseBound_eq_value_iff {hyphenFollows : Bool} {t : Token} {bound : Option (Option Nat)} :
    parseBound hyphenFollows t = value bound ↔
      (∃ n, t.value = .integer n ∧ 1 ≤ n ∧ bound = some (some n)) ∨
      (∃ name, t.value = .identifier name ∧ isOpenBound name = true ∧ hyphenFollows = false ∧
        bound = some none) := by
  unfold parseBound
  split
  next h => simp [bind_eq_value_iff, h]
  next n hz h =>
    have hn : 1 ≤ n := Nat.one_le_iff_ne_zero.mpr hz
    simp only [pure_eq_value_iff, h]
    constructor
    · rintro rfl
      exact Or.inl ⟨n, rfl, hn, rfl⟩
    · rintro (⟨m, hm, _, rfl⟩ | ⟨name, hm, _⟩)
      · cases hm
        rfl
      · cases hm
  next name h =>
    simp only [h]
    split
    next hb => simp_all [notBound, bind_eq_value_iff]
    next hb =>
      split
      next hf => simp_all [bind_eq_value_iff]
      next hf =>
        simp only [pure_eq_value_iff]
        constructor
        · rintro rfl
          exact Or.inr ⟨name, rfl, by simpa using hb, by simpa using hf, rfl⟩
        · rintro (⟨m, hm, _⟩ | ⟨_, _, _, _, rfl⟩)
          · cases hm
          · rfl
  next hi hn => simp_all [notBound, bind_eq_value_iff]

theorem parseBound_of_integer {t : Token} {n : Nat} (h : t.value = .integer n) (hn : 1 ≤ n)
    (hyphenFollows : Bool) : parseBound hyphenFollows t = value (some (some n)) :=
  parseBound_eq_value_iff.mpr (.inl ⟨n, h, hn, rfl⟩)

theorem parseBound_of_openBound {t : Token} {name : String} (h : t.value = .identifier name)
    (hb : isOpenBound name = true) : parseBound false t = value (some none) :=
  parseBound_eq_value_iff.mpr (.inr ⟨name, h, hb, rfl, rfl⟩)

theorem parseHyphen_eq_value_iff {t : Token} {present : Bool} :
    parseHyphen t = value present ↔ t.value = .punct .hyphen ∧ present = true := by
  unfold parseHyphen
  split
  next h => simp [Token.isPunct_iff.mp h, eq_comm]
  next h =>
    rw [Token.isPunct_iff] at h
    simp [bind_eq_value_iff, h]

/-- A body that is read in silence is in the grammar, unless it is empty or reversed. -/
theorem parseBody_sound {inner : List Token} {o : Option Substitution}
    (h : parseBody inner = value o) (hne : inner ≠ []) :
    ∃ s, o = some s ∧ (s.reversed = false → DerivesBody (inner.map Token.value) s) := by
  match inner with
  | [] => exact absurd rfl hne
  | [a] =>
    simp only [parseBody, bind_eq_value_iff, pure_eq_value_iff, parseBound_eq_value_iff] at h
    obtain ⟨_, ⟨n, ha, hn, rfl⟩ | ⟨name, ha, hb, _, rfl⟩, rfl⟩ := h
    · exact ⟨_, rfl, fun _ => by simpa [ha] using DerivesBody.number hn⟩
    · exact ⟨_, rfl, fun _ => by simpa [ha] using DerivesBody.all hb⟩
  | [a, b] =>
    simp only [parseBody, bind_eq_value_iff, pure_eq_value_iff, parseBound_eq_value_iff,
      parseHyphen_eq_value_iff] at h
    obtain ⟨_, ha, _, ⟨hb, rfl⟩, rfl⟩ := h
    obtain ⟨n, ha, hn, rfl⟩ | ⟨name, ha, _, hf, rfl⟩ := ha
    · refine ⟨.range n none, rfl, fun _ => ?_⟩
      simpa [ha, hb] using DerivesBody.onward hn
    · simp [Token.isPunct, hb] at hf
  | a :: b :: c :: extra =>
    simp only [parseBody, bind_eq_value_iff, pure_eq_value_iff, parseBound_eq_value_iff,
      parseHyphen_eq_value_iff, noneUnderstood_eq_value_iff] at h
    obtain ⟨_, ha, _, ⟨hb, rfl⟩, _, hc, _, rfl, rfl⟩ := h
    obtain ⟨n, ha, hn, rfl⟩ | ⟨name, ha, _, hf, rfl⟩ := ha
    · obtain ⟨m, hc, hm, rfl⟩ | ⟨name, hc, ho, _, rfl⟩ := hc
      · refine ⟨.range n (some m), rfl, fun hr => ?_⟩
        have hnm : n ≤ m := by simpa [Substitution.range, Substitution.reversed] using hr
        simpa [ha, hb, hc] using DerivesBody.range hn hnm
      · refine ⟨.range n none, rfl, fun _ => ?_⟩
        simpa [ha, hb, hc] using DerivesBody.toEnd hn ho
    · simp [Token.isPunct, hb] at hf

theorem parseBody_complete {inner : List Token} {s : Substitution}
    (h : DerivesBody (inner.map Token.value) s) :
    parseBody inner = value (some s) ∧ s.reversed = false := by
  generalize hv : inner.map Token.value = vs at h
  cases h with
  | number hn =>
    obtain ⟨a, rfl, ha⟩ := List.map_eq_singleton_iff.mp hv
    exact ⟨by simp [parseBody, bind_eq_value_iff, parseBound_of_integer ha hn], rfl⟩
  | all hb =>
    obtain ⟨a, rfl, ha⟩ := List.map_eq_singleton_iff.mp hv
    exact ⟨by simp [parseBody, bind_eq_value_iff, parseBound_of_openBound ha hb], rfl⟩
  | onward hn =>
    obtain ⟨a, _, rfl, ha, hv⟩ := List.map_eq_cons_iff.mp hv
    obtain ⟨b, rfl, hb⟩ := List.map_eq_singleton_iff.mp hv
    refine ⟨?_, rfl⟩
    simp [parseBody, bind_eq_value_iff, parseBound_of_integer ha hn, parseHyphen_eq_value_iff, hb,
      rangeOf, Substitution.range]
  | toEnd hn ho =>
    obtain ⟨a, _, rfl, ha, hv⟩ := List.map_eq_cons_iff.mp hv
    obtain ⟨b, _, rfl, hb, hv⟩ := List.map_eq_cons_iff.mp hv
    obtain ⟨c, rfl, hc⟩ := List.map_eq_singleton_iff.mp hv
    refine ⟨?_, rfl⟩
    simp [parseBody, bind_eq_value_iff, parseBound_of_integer ha hn, parseHyphen_eq_value_iff, hb,
      parseBound_of_openBound hc ho, rangeOf, Substitution.range]
  | range hn hnm =>
    obtain ⟨a, _, rfl, ha, hv⟩ := List.map_eq_cons_iff.mp hv
    obtain ⟨b, _, rfl, hb, hv⟩ := List.map_eq_cons_iff.mp hv
    obtain ⟨c, rfl, hc⟩ := List.map_eq_singleton_iff.mp hv
    refine ⟨?_, by simpa [Substitution.range, Substitution.reversed] using hnm⟩
    simp [parseBody, bind_eq_value_iff, parseBound_of_integer ha hn, parseHyphen_eq_value_iff, hb,
      parseBound_of_integer hc (Nat.le_trans hn hnm), rangeOf, Substitution.range]

theorem DerivesBody.ne_nil {vs : List TokenValue} {s : Substitution} (h : DerivesBody vs s) :
    vs ≠ [] := by
  cases h <;> simp

theorem parseClosedBody_eq_value_iff {start : Nat} {inner : List Token} {terminator : Token}
    {o : Option Substitution} :
    parseClosedBody start inner terminator = value o ↔
      ∃ s, o = some s ∧ DerivesBody (inner.map Token.value) s := by
  unfold parseClosedBody
  cases inner with
  | nil =>
    have hn : ∀ s, ¬ DerivesBody [] s := fun s h => h.ne_nil rfl
    simp [bind_eq_value_iff, hn]
  | cons t ts =>
    simp only [List.isEmpty_cons, Bool.false_eq_true, ↓reduceIte, bind_eq_value_iff]
    constructor
    · rintro ⟨b, hb, h⟩
      obtain ⟨s, rfl, hs⟩ := parseBody_sound hb (List.cons_ne_nil t ts)
      dsimp only at h
      split at h
      next => simp [bind_eq_value_iff] at h
      next hr => exact ⟨s, (pure_eq_value_iff.mp h).symm, hs (by simpa using hr)⟩
    · rintro ⟨s, rfl, hs⟩
      obtain ⟨hb, hr⟩ := parseBody_complete hs
      exact ⟨some s, hb, by simp [hr]⟩

/-- A reader of groups that accepts in silence exactly what the grammar derives as a group nested
at most `budget` deep. -/
def Recognizes (group : GroupReader) (budget : Nat) : Prop :=
  ∀ r g, group r = value g ↔
    DerivesGroup (r.tokens.map Token.value) g ∧ groupNesting g ≤ budget

theorem parseImperative_sound {edge : Edge} {start : Nat} {ts rest : List Token}
    {o : Option Expr} (h : parseImperative edge start ts = ⟨value o, rest⟩) :
    ∃ e us, o = some e ∧ ts = us ++ rest ∧
      DerivesExpr (.punct .exclamation :: us.map Token.value) e ∧ e.nesting = 0 := by
  simp only [parseImperative] at h
  split at h
  next => simp [parseUnclosedBody, bind_eq_value_iff] at h
  next terminator rest hd =>
    obtain ⟨ht, hts⟩ := dropUntil_eq_cons hd
    simp only [Parsed.mk.injEq, bind_eq_value_iff, parseClosedBody_eq_value_iff,
      pure_eq_value_iff] at h
    obtain ⟨⟨_, ⟨s, rfl, hs⟩, rfl⟩, rfl⟩ := h
    have hv : terminator.value = .punct .exclamation := by
      simpa [Marker.endsBody, Marker.punct, Token.isPunct_iff] using ht
    refine ⟨.imperative s, takeUntil Marker.imperative.endsBody ts ++ [terminator], rfl, ?_, ?_, rfl⟩
    · simpa using hts
    · simpa [hv] using DerivesExpr.imperative hs

theorem parseDefaultEnd_sound {edge : Edge} {x : Logged Expr} {ts rest : List Token}
    {o : Option Expr} (h : parseDefaultEnd edge x ts = ⟨value o, rest⟩) :
    ∃ e t, x = value e ∧ o = some e ∧ t.value = .punct .question ∧ ts = t :: rest := by
  cases ts with
  | nil => simp [parseDefaultEnd, bind_eq_value_iff] at h
  | cons t ts =>
    simp only [parseDefaultEnd] at h
    split at h
    next ht =>
      simp only [Parsed.mk.injEq, bind_eq_value_iff, pure_eq_value_iff] at h
      obtain ⟨⟨e, he, rfl⟩, rfl⟩ := h
      exact ⟨e, t, he, rfl, Token.isPunct_iff.mp ht, rfl⟩
    next => simp [bind_eq_value_iff] at h

/-- A default that is read in silence is a literal or a group in parentheses, and the closing
marker follows it. -/
theorem parseDefault_eq_value {group : GroupReader} {edge : Edge} {colon : Token}
    {ts rest : List Token} {o : Option Expr}
    (h : parseDefault group edge colon ts = ⟨value o, rest⟩) :
    ∃ e us, o = some e ∧ ts = us ++ rest ∧
      ((∃ text, e = .literal text ∧
          us.map Token.value = [.text text, .punct .question]) ∨
        ∃ es inside offset, e = .group es ∧ group ⟨inside, .before offset⟩ = value es ∧
          us.map Token.value = .punct .openParen ::
            (inside.map Token.value ++ [.punct .closeParen, .punct .question])) := by
  cases ts with
  | nil => simp [parseDefault, bind_eq_value_iff] at h
  | cons t ts =>
    simp only [parseDefault] at h
    split at h
    next text ht =>
      obtain ⟨e, q, he, rfl, hq, rfl⟩ := parseDefaultEnd_sound h
      obtain rfl := pure_eq_value_iff.mp he
      exact ⟨_, [t, q], rfl, rfl, Or.inl ⟨text, rfl, by simp [ht, hq]⟩⟩
    next ht =>
      split at h
      next => simp [bind_eq_value_iff] at h
      next close _ hd =>
        obtain ⟨hc, hts⟩ := dropEnclosed_eq_cons hd
        obtain ⟨e, q, he, rfl, hq, rfl⟩ := parseDefaultEnd_sound h
        simp only [bind_eq_value_iff, pure_eq_value_iff] at he
        obtain ⟨es, hes, rfl⟩ := he
        refine ⟨.group es, t :: (takeEnclosed 0 ts ++ [close, q]), rfl, by simpa using hts, ?_⟩
        exact Or.inr ⟨es, _, _, rfl, hes, by simp [ht, hc, hq]⟩
    next =>
      simp only [skipDefault] at h
      split at h <;> simp [bind_eq_value_iff] at h

/-- A substitution that is read in silence is one of the grammar, but for what the group of its
default is. -/
theorem parseOptional_eq_value {group : GroupReader} {edge : Edge} {start : Nat}
    {ts rest : List Token} {o : Option Expr}
    (h : parseOptional group edge start ts = ⟨value o, rest⟩) :
    ∃ e us, o = some e ∧ ts = us ++ rest ∧
      (DerivesExpr (.punct .question :: us.map Token.value) e ∧ e.nesting = 0 ∨
        ∃ s vs es inside offset, e = .optional s (some (.group es)) ∧ DerivesBody vs s ∧
          group ⟨inside, .before offset⟩ = value es ∧
          us.map Token.value = vs ++ .punct .colon :: .punct .openParen ::
            (inside.map Token.value ++ [.punct .closeParen, .punct .question])) := by
  simp only [parseOptional] at h
  split at h
  next => simp [parseUnclosedBody, bind_eq_value_iff] at h
  next terminator after hd =>
    obtain ⟨ht, hts⟩ := dropUntil_eq_cons hd
    split at h
    next hcolon =>
      rw [Token.isPunct_iff] at hcolon
      simp only [Parsed.mk.injEq, bind_eq_value_iff, parseClosedBody_eq_value_iff] at h
      obtain ⟨⟨_, ⟨s, rfl, hs⟩, d, hd, ho⟩, hrest⟩ := h
      have hp : parseDefault group edge terminator after = ⟨value d, rest⟩ := by
        rw [← hd, ← hrest]
      obtain ⟨e, us, rfl, rfl, hdefault⟩ := parseDefault_eq_value hp
      obtain rfl := pure_eq_value_iff.mp ho
      refine ⟨.optional s (some e), takeUntil Marker.optional.endsBody ts ++ terminator :: us, rfl,
        by simpa using hts, ?_⟩
      obtain ⟨text, rfl, hu⟩ | ⟨es, inside, offset, rfl, hes, hu⟩ := hdefault
      · refine Or.inl ⟨?_, by simp [Expr.nesting]⟩
        simpa [hcolon, hu] using DerivesExpr.literalDefault text hs
      · exact Or.inr ⟨s, _, es, inside, offset, rfl, hs, hes, by simp [hcolon, hu]⟩
    next hcolon =>
      have hv : terminator.value = .punct .question := by
        simpa [Marker.endsBody, Marker.punct, Token.isPunct_iff, hcolon] using ht
      simp only [Parsed.mk.injEq, bind_eq_value_iff, parseClosedBody_eq_value_iff,
        pure_eq_value_iff] at h
      obtain ⟨⟨_, ⟨s, rfl, hs⟩, rfl⟩, rfl⟩ := h
      refine ⟨.optional s none, takeUntil Marker.optional.endsBody ts ++ [terminator], rfl,
        by simpa using hts, Or.inl ⟨?_, by simp [Expr.nesting]⟩⟩
      simpa [hv] using DerivesExpr.optional hs

theorem parseOptional_sound {group : GroupReader} {budget : Nat} (hg : Recognizes group budget)
    {edge : Edge} {start : Nat} {ts rest : List Token} {o : Option Expr}
    (h : parseOptional group edge start ts = ⟨value o, rest⟩) :
    ∃ e us, o = some e ∧ ts = us ++ rest ∧
      DerivesExpr (.punct .question :: us.map Token.value) e ∧ e.nesting ≤ budget := by
  obtain ⟨e, us, rfl, hts, ⟨he, hn⟩ | ⟨s, vs, es, inside, offset, rfl, hs, hes, hu⟩⟩ :=
    parseOptional_eq_value h
  · exact ⟨e, us, rfl, hts, he, by omega⟩
  · obtain ⟨hes, hn⟩ := (hg _ _).mp hes
    refine ⟨_, us, rfl, hts, ?_, by simpa [Expr.nesting] using hn⟩
    rw [hu]
    exact .groupDefault hs hes

/-- The contents of parts with the commas between them put back. -/
def joinedValues (first : Region) (others : List Region) : List TokenValue :=
  first.tokens.map Token.value ++
    others.flatMap fun r => .punct .comma :: r.tokens.map Token.value

theorem joinedValues_cutAtCommas (edge : Edge) (depth : Nat) (ts : List Token) :
    joinedValues (cutAtCommas edge depth ts).1 (cutAtCommas edge depth ts).2 =
      ts.map Token.value := by
  induction ts generalizing depth with
  | nil => simp [cutAtCommas, joinedValues]
  | cons t ts ih =>
    simp only [cutAtCommas]
    split
    next h =>
      have hv : t.value = .punct .comma := Token.isPunct_iff.mp h.2
      simpa [joinedValues, hv] using ih 0
    next => simpa [joinedValues] using ih (t.depthAfter depth)

theorem parseArguments_sound {group : GroupReader} {budget : Nat} (hg : Recognizes group budget)
    {part : Region} {parts : List Region} {as : List (List Expr)}
    (h : parseArguments group true (part :: parts) = value as) :
    DerivesArguments (joinedValues part parts) as ∧ argumentsNesting as ≤ budget := by
  induction parts generalizing part as with
  | nil =>
    rw [parseArguments] at h
    split at h
    next => simp [bind_eq_value_iff] at h
    next hne =>
      simp only [parseArguments, bind_eq_value_iff, pure_eq_value_iff, hg _ _] at h
      obtain ⟨a, ⟨ha, hn⟩, _, rfl, rfl⟩ := h
      refine ⟨?_, by simpa [argumentsNesting] using hn⟩
      have hv : part.tokens.map Token.value ≠ [] := by simpa using hne
      simpa [joinedValues] using DerivesArguments.last hv ha
  | cons next parts ih =>
    rw [parseArguments] at h
    split at h
    next => simp [bind_eq_value_iff] at h
    next hne =>
      simp only [bind_eq_value_iff, pure_eq_value_iff, hg _ _] at h
      obtain ⟨a, ⟨ha, hn⟩, as, has, rfl⟩ := h
      obtain ⟨hd, hm⟩ := ih has
      refine ⟨?_, by simp only [argumentsNesting]; omega⟩
      have hv : part.tokens.map Token.value ≠ [] := by simpa using hne
      simpa [joinedValues] using DerivesArguments.more hv ha hd

/-- A call that is read in silence is closed, unless the end of the text may cut it off. -/
theorem parseOpenCall_eq_value {lenient : Bool} {group : GroupReader} {edge : Edge}
    {name : String} {ts rest : List Token} {o : Option Expr}
    (h : parseOpenCall lenient group edge name ts = ⟨value o, rest⟩) :
    ∃ as, o = some (.call name as) ∧
      ((∃ inside close, ts = inside ++ close :: rest ∧ close.value = .punct .closeParen ∧
          parseArgumentList group true ⟨inside, .before close.start⟩ = value as) ∨
        lenient = true ∧ edge.isInputEnd = true ∧ rest = [] ∧
          parseArgumentList group false ⟨ts, edge⟩ = value as) := by
  simp only [parseOpenCall] at h
  split at h
  next hd =>
    have hall := takeEnclosed_append_dropEnclosed 0 ts
    rw [hd, List.append_nil] at hall
    simp only [hall, Parsed.mk.injEq, bind_eq_value_iff] at h
    obtain ⟨⟨as, has, ho⟩, rfl⟩ := h
    split at ho
    next => simp [bind_eq_value_iff] at ho
    next hcut =>
      obtain rfl := pure_eq_value_iff.mp ho
      simp only [Bool.not_eq_true', Bool.not_eq_false, Bool.and_eq_true] at hcut
      exact ⟨as, rfl, Or.inr ⟨hcut.1, hcut.2, rfl, has⟩⟩
  next close after hd =>
    obtain ⟨hc, hts⟩ := dropEnclosed_eq_cons hd
    simp only [Parsed.mk.injEq, bind_eq_value_iff, pure_eq_value_iff] at h
    obtain ⟨⟨as, has, rfl⟩, rfl⟩ := h
    exact ⟨as, rfl, Or.inl ⟨_, close, hts, hc, has⟩⟩

theorem parseArgumentList_sound {group : GroupReader} {budget : Nat}
    (hg : Recognizes group budget) {ts : List Token} {edge : Edge} {as : List (List Expr)}
    (h : parseArgumentList group true ⟨ts, edge⟩ = value as) (name : String) :
    DerivesExpr (.identifier name :: .punct .openParen ::
        (ts.map Token.value ++ [.punct .closeParen])) (.call name as) ∧
      argumentsNesting as ≤ budget := by
  simp only [parseArgumentList, Region.parts] at h
  split at h
  next hempty =>
    obtain rfl := pure_eq_value_iff.mp h
    refine ⟨?_, by simp [argumentsNesting]⟩
    simpa [List.isEmpty_iff.mp hempty] using DerivesExpr.emptyCall name
  next =>
    obtain ⟨hargs, hn⟩ := parseArguments_sound hg h
    rw [joinedValues_cutAtCommas] at hargs
    exact ⟨.call name hargs, hn⟩

theorem parseCall_sound {group : GroupReader} {budget : Nat} (hg : Recognizes group budget)
    {edge : Edge} {name : String} {ts rest : List Token} {o : Option Expr}
    (h : parseCall false group edge name ts = ⟨value o, rest⟩) :
    ∃ e us, o = some e ∧ ts = us ++ rest ∧
      DerivesExpr (.identifier name :: us.map Token.value) e ∧ e.nesting ≤ budget := by
  cases ts with
  | nil => simp [parseCall, bind_eq_value_iff] at h
  | cons t ts =>
    simp only [parseCall] at h
    split at h
    next ht =>
      rw [Token.isPunct_iff] at ht
      obtain ⟨as, rfl, ⟨inside, close, rfl, hc, has⟩ | ⟨hcut, _⟩⟩ := parseOpenCall_eq_value h
      · obtain ⟨hcall, hn⟩ := parseArgumentList_sound hg has name
        refine ⟨_, t :: (inside ++ [close]), rfl, by simp, ?_, hn⟩
        simpa [ht, hc] using hcall
      · cases hcut
    next => simp [bind_eq_value_iff] at h

/-- A group in angle brackets that is read in silence is closed, and holds no closing bracket. -/
theorem parseAngleGroup_eq_value {group : GroupReader} {edge : Edge} {ts rest : List Token}
    {o : Option Expr} (h : parseAngleGroup group edge ts = ⟨value o, rest⟩) :
    ∃ es us inside offset, o = some (.group es) ∧ ts = us ++ rest ∧
      group ⟨inside, .before offset⟩ = value es ∧
      .punct .closeAngle ∉ inside.map Token.value ∧
      us.map Token.value = inside.map Token.value ++ [.punct .closeAngle] := by
  simp only [parseAngleGroup] at h
  split at h
  next => simp [bind_eq_value_iff] at h
  next close after hd =>
    obtain ⟨hc, hts⟩ := dropUntil_eq_cons hd
    rw [Token.isPunct_iff] at hc
    simp only [Parsed.mk.injEq, bind_eq_value_iff, pure_eq_value_iff] at h
    obtain ⟨⟨es, hes, rfl⟩, rfl⟩ := h
    refine ⟨es, takeUntil (·.isPunct .closeAngle) ts ++ [close], _, _, rfl, by simpa using hts, hes,
      ?_, by simp [hc]⟩
    intro hm
    obtain ⟨t, ht, hv⟩ := List.mem_map.mp hm
    have hnot := takeUntil_not ht
    simp [Token.isPunct, hv] at hnot

theorem parseAngleGroup_sound {group : GroupReader} {budget : Nat} (hg : Recognizes group budget)
    {edge : Edge} {ts rest : List Token} {o : Option Expr}
    (h : parseAngleGroup group edge ts = ⟨value o, rest⟩) :
    ∃ e us, o = some e ∧ ts = us ++ rest ∧
      DerivesExpr (.punct .openAngle :: us.map Token.value) e ∧ e.nesting ≤ budget := by
  obtain ⟨es, us, inside, offset, rfl, hts, hes, hno, hu⟩ := parseAngleGroup_eq_value h
  obtain ⟨hes, hn⟩ := (hg _ _).mp hes
  refine ⟨_, us, rfl, hts, ?_, by simpa [Expr.nesting] using hn⟩
  rw [hu]
  exact .group hes hno

/-- Whatever is read in silence is an expression of the grammar. -/
theorem parseExpression_sound {group : GroupReader} {budget : Nat} (hg : Recognizes group budget)
    {edge : Edge} {t : Token} {ts rest : List Token} {o : Option Expr}
    (h : parseExpression false group edge t ts = ⟨value o, rest⟩) :
    ∃ e us, o = some e ∧ t :: ts = us ++ rest ∧
      DerivesExpr (us.map Token.value) e ∧ e.nesting ≤ budget := by
  unfold parseExpression at h
  split at h
  next s ht =>
    simp only [Parsed.mk.injEq, pure_eq_value_iff] at h
    obtain ⟨rfl, rfl⟩ := h
    exact ⟨_, [t], rfl, rfl, by simpa [ht] using DerivesExpr.text s, Nat.zero_le _⟩
  next name ht =>
    obtain ⟨e, us, rfl, rfl, he, hn⟩ := parseCall_sound hg h
    exact ⟨e, t :: us, rfl, rfl, by simpa [ht] using he, hn⟩
  next ht =>
    obtain ⟨e, us, rfl, rfl, he, hn⟩ := parseAngleGroup_sound hg h
    exact ⟨e, t :: us, rfl, rfl, by simpa [ht] using he, hn⟩
  next ht =>
    obtain ⟨e, us, rfl, rfl, he, hn⟩ := parseImperative_sound h
    exact ⟨e, t :: us, rfl, rfl, by simpa [ht] using he, by omega⟩
  next ht =>
    obtain ⟨e, us, rfl, rfl, he, hn⟩ := parseOptional_sound hg h
    exact ⟨e, t :: us, rfl, rfl, by simpa [ht] using he, hn⟩
  next => simp [bind_eq_value_iff] at h

theorem parseExpressions_sound {group : GroupReader} {budget : Nat} (hg : Recognizes group budget)
    {edge : Edge} {ts : List Token} {g : List Expr}
    (h : parseExpressions false group edge ts = value g) :
    DerivesGroup (ts.map Token.value) g ∧ ∀ e ∈ g, e.nesting ≤ budget := by
  induction hlen : ts.length using Nat.strongRecOn generalizing ts g with
  | ind n ih =>
    cases ts with
    | nil =>
      rw [parseExpressions_nil, value_inj] at h
      subst h
      exact ⟨.nil, by simp⟩
    | cons t ts =>
      simp only [parseExpressions_cons, andThen_eq_value_iff, value_inj] at h
      obtain ⟨o, ho, es, hes, rfl⟩ := h
      obtain ⟨e, us, rfl, hts, he, hn⟩ := parseExpression_sound hg
        (show parseExpression false group edge t ts = ⟨value o, _⟩ by rw [← ho])
      have hlt := (parseExpression_rest_suffix false group edge t ts).length_le
      obtain ⟨hd, hm⟩ := ih _ (by simp only [List.length_cons] at hlen; omega) hes rfl
      refine ⟨?_, by simpa [hn] using hm⟩
      rw [hts, List.map_append]
      exact .cons he hd

theorem exists_of_map_eq_enclosed {us : List Token} {vs : List TokenValue} {a b : TokenValue}
    (h : us.map Token.value = a :: (vs ++ [b])) :
    ∃ o ws c, us = o :: (ws ++ [c]) ∧ o.value = a ∧ ws.map Token.value = vs ∧ c.value = b := by
  obtain ⟨o, _, rfl, ho, h⟩ := List.map_eq_cons_iff.mp h
  obtain ⟨ws, _, rfl, hw, h⟩ := List.map_eq_append_iff.mp h
  obtain ⟨c, rfl, hc⟩ := List.map_eq_singleton_iff.mp h
  exact ⟨o, ws, c, rfl, ho, hw, hc⟩

theorem DerivesBody.isPlain {vs : List TokenValue} {s : Substitution} (h : DerivesBody vs s) :
    ∀ v ∈ vs, v.isPlain = true := by
  cases h <;> simp [TokenValue.isPlain]

theorem DerivesBody.keepsDepth {vs : List TokenValue} {s : Substitution} (h : DerivesBody vs s)
    {us : List Token} (hu : us.map Token.value = vs) : KeepsDepth 0 us :=
  .ofPlain fun _ hm => h.isPlain _ (hu ▸ List.mem_map_of_mem hm)

theorem KeepsDepth.enclosed {o c : Token} {us : List Token} (ho : o.value.isPlain = true)
    (hc : c.value.isPlain = true) (h : KeepsDepth 0 us) : KeepsDepth 0 (o :: (us ++ [c])) :=
  .cons ho (.append h (.plain hc))

mutual

/-- Parentheses match in all that the grammar derives, and commas stand inside them. -/
theorem DerivesExpr.keepsDepth {vs : List TokenValue} {e : Expr} (h : DerivesExpr vs e)
    {us : List Token} (hu : us.map Token.value = vs) : KeepsDepth 0 us := by
  cases h with
  | text s =>
    obtain ⟨t, rfl, ht⟩ := List.map_eq_singleton_iff.mp hu
    exact .plain (by rw [ht]; rfl)
  | emptyCall name =>
    obtain ⟨t, _, rfl, ht, hu⟩ := List.map_eq_cons_iff.mp hu
    obtain ⟨o, _, rfl, ho, hu⟩ := List.map_eq_cons_iff.mp hu
    obtain ⟨c, rfl, hc⟩ := List.map_eq_singleton_iff.mp hu
    exact .cons (by rw [ht]; rfl) (.paren ho hc (.nil 1))
  | call name hargs =>
    obtain ⟨t, _, rfl, ht, hu⟩ := List.map_eq_cons_iff.mp hu
    obtain ⟨o, ws, c, rfl, ho, hw, hc⟩ := exists_of_map_eq_enclosed hu
    exact .cons (by rw [ht]; rfl) (.paren ho hc (hargs.keepsDepth hw))
  | group hes _ =>
    obtain ⟨o, ws, c, rfl, ho, hw, hc⟩ := exists_of_map_eq_enclosed hu
    exact .enclosed (by rw [ho]; rfl) (by rw [hc]; rfl) (hes.keepsDepth hw)
  | imperative hs =>
    obtain ⟨o, ws, c, rfl, ho, hw, hc⟩ := exists_of_map_eq_enclosed hu
    exact .enclosed (by rw [ho]; rfl) (by rw [hc]; rfl) (hs.keepsDepth hw)
  | optional hs =>
    obtain ⟨o, ws, c, rfl, ho, hw, hc⟩ := exists_of_map_eq_enclosed hu
    exact .enclosed (by rw [ho]; rfl) (by rw [hc]; rfl) (hs.keepsDepth hw)
  | literalDefault text hs =>
    obtain ⟨q, _, rfl, hq, hu⟩ := List.map_eq_cons_iff.mp hu
    obtain ⟨ws, _, rfl, hw, hu⟩ := List.map_eq_append_iff.mp hu
    obtain ⟨k, _, rfl, hk, hu⟩ := List.map_eq_cons_iff.mp hu
    obtain ⟨t, _, rfl, ht, hu⟩ := List.map_eq_cons_iff.mp hu
    obtain ⟨r, rfl, hr⟩ := List.map_eq_singleton_iff.mp hu
    have hend := KeepsDepth.cons (t := t) (by rw [ht]; rfl) (.plain (t := r) (by rw [hr]; rfl))
    exact .cons (by rw [hq]; rfl) (.append (hs.keepsDepth hw) (.cons (by rw [hk]; rfl) hend))
  | groupDefault hs hes =>
    obtain ⟨q, _, rfl, hq, hu⟩ := List.map_eq_cons_iff.mp hu
    obtain ⟨bs, _, rfl, hb, hu⟩ := List.map_eq_append_iff.mp hu
    obtain ⟨k, _, rfl, hk, hu⟩ := List.map_eq_cons_iff.mp hu
    obtain ⟨o, _, rfl, ho, hu⟩ := List.map_eq_cons_iff.mp hu
    obtain ⟨ws, _, rfl, hw, hu⟩ := List.map_eq_append_iff.mp hu
    obtain ⟨c, _, rfl, hc, hu⟩ := List.map_eq_cons_iff.mp hu
    obtain ⟨r, rfl, hr⟩ := List.map_eq_singleton_iff.mp hu
    have hparen := KeepsDepth.paren ho hc ((hes.keepsDepth hw).weaken 1)
    have hend := hparen.append (.plain (t := r) (by rw [hr]; rfl))
    refine .cons (by rw [hq]; rfl) (.append (hs.keepsDepth hb) (.cons (by rw [hk]; rfl) ?_))
    simpa using hend

theorem DerivesGroup.keepsDepth {vs : List TokenValue} {es : List Expr} (h : DerivesGroup vs es)
    {us : List Token} (hu : us.map Token.value = vs) : KeepsDepth 0 us := by
  cases h with
  | nil =>
    obtain rfl := List.map_eq_nil_iff.mp hu
    exact .nil 0
  | cons he hes =>
    obtain ⟨us, ws, rfl, hv, hw⟩ := List.map_eq_append_iff.mp hu
    exact .append (he.keepsDepth hv) (hes.keepsDepth hw)

theorem DerivesArguments.keepsDepth {vs : List TokenValue} {as : List (List Expr)}
    (h : DerivesArguments vs as) {us : List Token} (hu : us.map Token.value = vs) :
    KeepsDepth 1 us := by
  cases h with
  | last _ ha => exact (ha.keepsDepth hu).weaken 1
  | more _ ha has =>
    obtain ⟨us, _, rfl, hv, hu⟩ := List.map_eq_append_iff.mp hu
    obtain ⟨c, ws, rfl, hc, hw⟩ := List.map_eq_cons_iff.mp hu
    exact ((ha.keepsDepth hv).weaken 1).append ((KeepsDepth.comma hc).append (has.keepsDepth hw))

end

theorem DerivesBody.not_endsBody {vs : List TokenValue} {s : Substitution} (h : DerivesBody vs s)
    {us : List Token} (hu : us.map Token.value = vs) (m : Marker) :
    ∀ u ∈ us, m.endsBody u = false := by
  intro u hm
  have hv : u.value ∈ vs := hu ▸ List.mem_map_of_mem hm
  have hp : ∀ p, p ≠ .hyphen → u.isPunct p = false := by
    intro p hp
    rw [← Bool.not_eq_true, Token.isPunct_iff]
    intro he
    rw [he] at hv
    cases h <;> simp_all
  cases m <;> simp [Marker.endsBody, Marker.punct, hp]

theorem DerivesArguments.ne_nil {vs : List TokenValue} {as : List (List Expr)}
    (h : DerivesArguments vs as) : vs ≠ [] := by
  cases h with
  | last hne _ => exact hne
  | more hne _ _ => simp

theorem DerivesArguments.parseArguments {group : GroupReader} {budget : Nat}
    (hg : Recognizes group budget) {vs : List TokenValue} {as : List (List Expr)}
    (h : DerivesArguments vs as) (hn : argumentsNesting as ≤ budget) {us : List Token}
    (hu : us.map Token.value = vs) (edge : Edge) :
    parseArguments group true ((cutAtCommas edge 0 us).1 :: (cutAtCommas edge 0 us).2) =
      value as := by
  induction as generalizing vs us with
  | nil => cases h
  | cons a as ih =>
    rw [argumentsNesting, Nat.max_le] at hn
    cases h with
    | last hne ha =>
      have hcut := (ha.keepsDepth hu).cut edge 0 (Nat.le_refl 0) []
      simp only [List.append_nil, cutAtCommas] at hcut
      have hus : us ≠ [] := by
        rintro rfl
        exact hne hu.symm
      have hgroup : group ⟨us, edge⟩ = value a := (hg _ _).mpr ⟨hu ▸ ha, hn.1⟩
      simp [hcut, CommandTemplate.parseArguments, hus, bind_eq_value_iff, hgroup]
    | more hne ha has =>
      obtain ⟨us, _, rfl, hv, hu⟩ := List.map_eq_append_iff.mp hu
      obtain ⟨c, ws, rfl, hc, hw⟩ := List.map_eq_cons_iff.mp hu
      have hcut := (ha.keepsDepth hv).cut edge 0 (Nat.le_refl 0) (c :: ws)
      have hcomma : c.isPunct .comma = true := Token.isPunct_iff.mpr hc
      simp only [cutAtCommas, hcomma, and_self, ↓reduceIte, List.append_nil] at hcut
      have hus : us ≠ [] := by
        rintro rfl
        exact hne hv.symm
      have hgroup : group ⟨us, .before c.start⟩ = value a := (hg _ _).mpr ⟨hv ▸ ha, hn.1⟩
      have hmore := ih has hn.2 hw
      rw [hcut, CommandTemplate.parseArguments]
      simp [hus, bind_eq_value_iff, hgroup, hmore]

theorem parseCall_complete {group : GroupReader} {o c : Token} {ws : List Token} {least : Nat}
    {as : List (List Expr)} (ho : o.value = .punct .openParen) (hc : c.value = .punct .closeParen)
    (hw : KeepsDepth least ws)
    (h : parseArgumentList group true ⟨ws, .before c.start⟩ = value as)
    (edge : Edge) (name : String) (rest : List Token) :
    parseCall false group edge name (o :: (ws ++ c :: rest)) =
      ⟨value (some (.call name as)), rest⟩ := by
  simp [parseCall, Token.isPunct_iff, ho, parseOpenCall, hw.takeEnclosed_eq hc,
    hw.dropEnclosed_eq hc, bind_eq_value_iff, h]

theorem parseAngleGroup_complete {group : GroupReader} {ws : List Token} {c : Token}
    {es : List Expr} (hc : c.value = .punct .closeAngle)
    (hno : .punct .closeAngle ∉ ws.map Token.value)
    (h : group ⟨ws, .before c.start⟩ = value es) (edge : Edge) (rest : List Token) :
    parseAngleGroup group edge (ws ++ c :: rest) = ⟨value (some (.group es)), rest⟩ := by
  have hws : ∀ w ∈ ws, w.isPunct .closeAngle = false := by
    intro w hm
    rw [← Bool.not_eq_true, Token.isPunct_iff]
    intro hv
    exact hno (hv ▸ List.mem_map_of_mem hm)
  have hcp : c.isPunct .closeAngle = true := Token.isPunct_iff.mpr hc
  simp [parseAngleGroup, takeUntil_append_cons hws hcp, dropUntil_append_cons hws hcp,
    bind_eq_value_iff, h]

theorem parseImperative_complete {s : Substitution} {bs : List Token} {c : Token}
    (hs : DerivesBody (bs.map Token.value) s) (hc : c.value = .punct .exclamation) (edge : Edge)
    (start : Nat) (rest : List Token) :
    parseImperative edge start (bs ++ c :: rest) = ⟨value (some (.imperative s)), rest⟩ := by
  have hends : Marker.imperative.endsBody c = true := by
    simp [Marker.endsBody, Marker.punct, Token.isPunct_iff, hc]
  have hb := hs.not_endsBody rfl .imperative
  simp [parseImperative, takeUntil_append_cons hb hends, dropUntil_append_cons hb hends,
    bind_eq_value_iff, parseClosedBody_eq_value_iff, hs]

theorem parseOptional_bare_complete {s : Substitution} {bs : List Token} {c : Token}
    (hs : DerivesBody (bs.map Token.value) s) (hc : c.value = .punct .question)
    (group : GroupReader) (edge : Edge) (start : Nat) (rest : List Token) :
    parseOptional group edge start (bs ++ c :: rest) =
      ⟨value (some (.optional s none)), rest⟩ := by
  have hends : Marker.optional.endsBody c = true := by
    simp [Marker.endsBody, Marker.punct, Token.isPunct_iff, hc]
  have hb := hs.not_endsBody rfl .optional
  have hcolon : c.isPunct .colon = false := by simp [Token.isPunct, hc]
  simp [parseOptional, takeUntil_append_cons hb hends, dropUntil_append_cons hb hends, hcolon,
    bind_eq_value_iff, parseClosedBody_eq_value_iff, hs]

theorem parseOptional_default_complete {group : GroupReader} {s : Substitution} {bs ws rest : List Token}
    {k : Token} {e : Expr} (hs : DerivesBody (bs.map Token.value) s)
    (hk : k.value = .punct .colon) {edge : Edge}
    (h : parseDefault group edge k (ws ++ rest) = ⟨value (some e), rest⟩) (start : Nat) :
    parseOptional group edge start (bs ++ k :: (ws ++ rest)) =
      ⟨value (some (.optional s (some e))), rest⟩ := by
  have hends : Marker.optional.endsBody k = true := by
    simp [Marker.endsBody, Token.isPunct_iff, hk]
  have hb := hs.not_endsBody rfl .optional
  have hp := Token.isPunct_iff.mpr hk
  simp only [parseOptional, takeUntil_append_cons hb hends, dropUntil_append_cons hb hends, hp,
    ↓reduceIte, h]
  simp only [Parsed.mk.injEq, and_true, bind_eq_value_iff, parseClosedBody_eq_value_iff]
  exact ⟨some s, ⟨s, rfl, hs⟩, some e, rfl, rfl⟩

theorem parseDefault_text_complete {t r : Token} {text : String} (ht : t.value = .text text)
    (hr : r.value = .punct .question) (group : GroupReader) (edge : Edge) (k : Token)
    (rest : List Token) :
    parseDefault group edge k (t :: r :: rest) = ⟨value (some (.literal text)), rest⟩ := by
  simp [parseDefault, ht, parseDefaultEnd, Token.isPunct_iff, hr, bind_eq_value_iff]

theorem parseDefault_group_complete {group : GroupReader} {o c r : Token} {ws : List Token}
    {least : Nat} {es : List Expr} (ho : o.value = .punct .openParen)
    (hc : c.value = .punct .closeParen) (hr : r.value = .punct .question)
    (hw : KeepsDepth least ws) (h : group ⟨ws, .before c.start⟩ = value es) (edge : Edge)
    (k : Token) (rest : List Token) :
    parseDefault group edge k (o :: (ws ++ c :: r :: rest)) =
      ⟨value (some (.group es)), rest⟩ := by
  simp [parseDefault, ho, hw.takeEnclosed_eq hc, hw.dropEnclosed_eq hc, parseDefaultEnd,
    Token.isPunct_iff, hr, bind_eq_value_iff, h]

theorem parseArgumentList_complete {group : GroupReader} {budget : Nat}
    (hg : Recognizes group budget) {ws : List Token} {as : List (List Expr)}
    (h : DerivesArguments (ws.map Token.value) as) (hn : argumentsNesting as ≤ budget)
    (edge : Edge) : parseArgumentList group true ⟨ws, edge⟩ = value as := by
  have hempty : ws.isEmpty = false := by
    rw [List.isEmpty_eq_false_iff]
    rintro rfl
    exact h.ne_nil rfl
  rw [parseArgumentList, hempty]
  exact h.parseArguments hg hn rfl edge

/-- Every expression of the grammar is read in silence, and nothing after it is touched. -/
theorem DerivesExpr.parseExpression {group : GroupReader} {budget : Nat}
    (hg : Recognizes group budget) {vs : List TokenValue} {e : Expr} (h : DerivesExpr vs e)
    (hn : e.nesting ≤ budget) {us : List Token} (hu : us.map Token.value = vs) (edge : Edge)
    (rest : List Token) :
    ∃ t ts, us = t :: ts ∧
      parseExpression false group edge t (ts ++ rest) = ⟨value (some e), rest⟩ := by
  cases h with
  | text s =>
    obtain ⟨t, rfl, ht⟩ := List.map_eq_singleton_iff.mp hu
    exact ⟨t, [], rfl, by simp [CommandTemplate.parseExpression, ht, pure_def]⟩
  | emptyCall name =>
    obtain ⟨t, _, rfl, ht, hu⟩ := List.map_eq_cons_iff.mp hu
    obtain ⟨o, _, rfl, ho, hu⟩ := List.map_eq_cons_iff.mp hu
    obtain ⟨c, rfl, hc⟩ := List.map_eq_singleton_iff.mp hu
    refine ⟨t, _, rfl, ?_⟩
    have hargs : parseArgumentList group true ⟨[], .before c.start⟩ = value [] := rfl
    simpa [CommandTemplate.parseExpression, ht] using
      parseCall_complete ho hc (.nil 0) hargs edge name rest
  | call name hargs =>
    obtain ⟨t, _, rfl, ht, hu⟩ := List.map_eq_cons_iff.mp hu
    obtain ⟨o, ws, c, rfl, ho, rfl, hc⟩ := exists_of_map_eq_enclosed hu
    refine ⟨t, _, rfl, ?_⟩
    have hall := parseArgumentList_complete hg hargs hn (.before c.start)
    simpa [CommandTemplate.parseExpression, ht] using
      parseCall_complete ho hc (hargs.keepsDepth rfl) hall edge name rest
  | group hes hno =>
    obtain ⟨o, ws, c, rfl, ho, rfl, hc⟩ := exists_of_map_eq_enclosed hu
    refine ⟨o, _, rfl, ?_⟩
    have hgroup : group ⟨ws, .before c.start⟩ = value _ := (hg _ _).mpr ⟨hes, hn⟩
    simpa [CommandTemplate.parseExpression, ho] using
      parseAngleGroup_complete hc hno hgroup edge rest
  | imperative hs =>
    obtain ⟨o, ws, c, rfl, ho, rfl, hc⟩ := exists_of_map_eq_enclosed hu
    refine ⟨o, _, rfl, ?_⟩
    simpa [CommandTemplate.parseExpression, ho] using
      parseImperative_complete hs hc edge o.start rest
  | optional hs =>
    obtain ⟨o, ws, c, rfl, ho, rfl, hc⟩ := exists_of_map_eq_enclosed hu
    refine ⟨o, _, rfl, ?_⟩
    simpa [CommandTemplate.parseExpression, ho] using
      parseOptional_bare_complete hs hc group edge o.start rest
  | literalDefault text hs =>
    obtain ⟨q, _, rfl, hq, hu⟩ := List.map_eq_cons_iff.mp hu
    obtain ⟨bs, _, rfl, hb, hu⟩ := List.map_eq_append_iff.mp hu
    obtain ⟨k, _, rfl, hk, hu⟩ := List.map_eq_cons_iff.mp hu
    obtain ⟨t, _, rfl, ht, hu⟩ := List.map_eq_cons_iff.mp hu
    obtain ⟨r, rfl, hr⟩ := List.map_eq_singleton_iff.mp hu
    refine ⟨q, _, rfl, ?_⟩
    have hd := parseDefault_text_complete ht hr group edge k rest
    simpa [CommandTemplate.parseExpression, hq] using
      @parseOptional_default_complete _ _ _ [t, r] _ _ _ (hb ▸ hs) hk _ hd q.start
  | groupDefault hs hes =>
    obtain ⟨q, _, rfl, hq, hu⟩ := List.map_eq_cons_iff.mp hu
    obtain ⟨bs, _, rfl, hb, hu⟩ := List.map_eq_append_iff.mp hu
    obtain ⟨k, _, rfl, hk, hu⟩ := List.map_eq_cons_iff.mp hu
    obtain ⟨o, _, rfl, ho, hu⟩ := List.map_eq_cons_iff.mp hu
    obtain ⟨ws, _, rfl, hw, hu⟩ := List.map_eq_append_iff.mp hu
    obtain ⟨c, _, rfl, hc, hu⟩ := List.map_eq_cons_iff.mp hu
    obtain ⟨r, rfl, hr⟩ := List.map_eq_singleton_iff.mp hu
    refine ⟨q, _, rfl, ?_⟩
    have hgroup : group ⟨ws, .before c.start⟩ = value _ := (hg _ _).mpr ⟨hw ▸ hes, hn⟩
    have hd := parseDefault_group_complete ho hc hr (hes.keepsDepth hw) hgroup edge k rest
    rw [show o :: (ws ++ c :: r :: rest) = (o :: (ws ++ [c, r])) ++ rest by simp] at hd
    simpa [CommandTemplate.parseExpression, hq] using
      parseOptional_default_complete (hb ▸ hs) hk hd q.start

theorem DerivesGroup.parseExpressions {group : GroupReader} {budget : Nat}
    (hg : Recognizes group budget) {vs : List TokenValue} {g : List Expr}
    (h : DerivesGroup vs g) (hn : ∀ e ∈ g, e.nesting ≤ budget) {us : List Token}
    (hu : us.map Token.value = vs) (edge : Edge) :
    parseExpressions false group edge us = value g := by
  induction g generalizing vs us with
  | nil =>
    cases h
    obtain rfl := List.map_eq_nil_iff.mp hu
    exact parseExpressions_nil _ _ _
  | cons e es ih =>
    cases h with
    | cons he hes =>
      obtain ⟨us, ws, rfl, hv, hw⟩ := List.map_eq_append_iff.mp hu
      obtain ⟨t, ts, rfl, hp⟩ := he.parseExpression hg (hn e (by simp)) hv edge ws
      have hrest := ih hes (fun f hf => hn f (by simp [hf])) hw
      rw [List.cons_append, parseExpressions_cons, hp]
      simp [andThen_eq_value_iff, hrest]

theorem parseGroup_recognizes (budget : Nat) : Recognizes (parseGroup false budget) budget := by
  induction budget with
  | zero =>
    intro r g
    have := groupNesting_pos g
    simp only [parseGroup, abort_ne_value, false_iff, not_and]
    omega
  | succ budget ih =>
    intro r g
    rw [parseGroup, groupNesting_le_succ_iff]
    constructor
    · exact parseExpressions_sound ih
    · rintro ⟨hd, hn⟩
      exact hd.parseExpressions ih hn rfl r.edge

/-- Tokens are read without a problem exactly if the grammar derives them, with the same tree and
nested no deeper than is allowed. -/
theorem parseTokens_silent_iff (tokens : List Token) (length : Nat) (g : List Expr) :
    ((parseTokens false tokens length).result = .ok g ∧ (parseTokens false tokens length).log = []) ↔
      DerivesGroup (tokens.map Token.value) g ∧ groupNesting g ≤ maxNesting := by
  rw [← eq_value_iff]
  exact parseGroup_recognizes maxNesting ⟨tokens, .inputEnd length⟩ g

end CommandTemplate
