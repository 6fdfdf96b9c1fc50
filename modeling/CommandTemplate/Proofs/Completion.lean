import CommandTemplate.Proofs.Leniency
import CommandTemplate.Proofs.Recognition

namespace CommandTemplate

open Logged

mutual

/-- The grammar of templates in which a name may stand for a call without its parentheses. -/
inductive LooseExpr : List TokenValue → Expr → Prop
  | strict {vs : List TokenValue} {e : Expr} : DerivesExpr vs e → LooseExpr vs e
  | name (name : String) : LooseExpr [.identifier name] (.call name [])
  | call (name : String) {vs : List TokenValue} {arguments : List (List Expr)} :
      LooseArguments vs arguments →
      LooseExpr (.identifier name :: .punct .openParen :: (vs ++ [.punct .closeParen]))
        (.call name arguments)
  | group {vs : List TokenValue} {es : List Expr} :
      LooseGroup vs es → .punct .closeAngle ∉ vs →
      LooseExpr (.punct .openAngle :: (vs ++ [.punct .closeAngle])) (.group es)
  | groupDefault {vs ws : List TokenValue} {s : Substitution} {es : List Expr} :
      DerivesBody vs s → LooseGroup ws es →
      LooseExpr (.punct .question :: (vs ++ .punct .colon :: .punct .openParen ::
          (ws ++ [.punct .closeParen, .punct .question])))
        (.optional s (some (.group es)))

inductive LooseGroup : List TokenValue → List Expr → Prop
  | nil : LooseGroup [] []
  | cons {vs ws : List TokenValue} {e : Expr} {es : List Expr} :
      LooseExpr vs e → LooseGroup ws es → LooseGroup (vs ++ ws) (e :: es)

inductive LooseArguments : List TokenValue → List (List Expr) → Prop
  | last {vs : List TokenValue} {a : List Expr} :
      vs ≠ [] → LooseGroup vs a → LooseArguments vs [a]
  | more {vs ws : List TokenValue} {a : List Expr} {as : List (List Expr)} :
      vs ≠ [] → LooseGroup vs a → LooseArguments ws as →
      LooseArguments (vs ++ .punct .comma :: ws) (a :: as)

end

/-- What stands there, and what it is read as. Only if it is `cut` off by the end of the text do
these differ: closing parentheses come behind it, in place of a last comma if there is one. -/
inductive Completes : Bool → List TokenValue → List TokenValue → Prop
  | whole (cut : Bool) (vs : List TokenValue) : Completes cut vs vs
  | closed (vs : List TokenValue) (n : Nat) :
      Completes true vs (vs ++ List.replicate (n + 1) (.punct .closeParen))
  | comma (vs : List TokenValue) (n : Nat) :
      Completes true (vs ++ [.punct .comma])
        (vs ++ List.replicate (n + 1) (.punct .closeParen))

namespace Completes

variable {cut : Bool} {vs ws : List TokenValue}

theorem eq_of_whole (h : Completes false vs ws) : vs = ws := by
  cases h with
  | whole => rfl

theorem ne_nil (h : Completes cut vs ws) (hne : vs ≠ []) : ws ≠ [] := by
  cases h with
  | whole => exact hne
  | closed _ n => simp
  | comma us n => simp

theorem prepend (us : List TokenValue) (h : Completes cut vs ws) :
    Completes cut (us ++ vs) (us ++ ws) := by
  cases h with
  | whole => exact .whole cut (us ++ vs)
  | closed _ n =>
    rw [← List.append_assoc]
    exact .closed (us ++ vs) n
  | comma front n =>
    rw [← List.append_assoc, ← List.append_assoc]
    exact .comma (us ++ front) n

theorem close (h : Completes cut vs ws) : Completes true vs (ws ++ [.punct .closeParen]) := by
  cases h with
  | whole => exact .closed vs 0
  | closed _ n =>
    rw [List.append_assoc, ← List.replicate_succ']
    exact .closed vs (n + 1)
  | comma us n =>
    rw [List.append_assoc, ← List.replicate_succ']
    exact .comma us (n + 1)

end Completes

/-- The parenthesis behind the arguments of a call, if it is there. -/
def closing (closed : Bool) : List TokenValue :=
  if closed then [.punct .closeParen] else []

theorem Completes.closing {cut closed : Bool} {vs ws : List TokenValue} (h : Completes cut vs ws)
    (hc : closed = true → cut = false) :
    Completes (!closed) (vs ++ closing closed) (ws ++ [.punct .closeParen]) := by
  cases closed with
  | true =>
    obtain rfl := hc rfl
    rw [h.eq_of_whole]
    exact .whole _ _
  | false => simpa [CommandTemplate.closing] using h.close

/-- A reader of groups that reads in silence only what the looser grammar derives, once what the
end of the text cuts off is completed. -/
def LooselyReads (group : GroupReader) : Prop :=
  ∀ r g, group r = value g →
    ∃ ws, LooseGroup ws g ∧ Completes r.edge.isInputEnd (r.tokens.map Token.value) ws

section

variable {group : GroupReader}

theorem LooselyReads.inner (hg : LooselyReads group) {ts : List Token} {offset : Nat}
    {g : List Expr} (h : group ⟨ts, .before offset⟩ = value g) :
    LooseGroup (ts.map Token.value) g := by
  obtain ⟨ws, hw, hc⟩ := hg _ _ h
  have hv : ts.map Token.value = ws := Completes.eq_of_whole hc
  rwa [hv]

/-- The arguments of a call, up to the parenthesis that closes it. Behind a last comma there may be
none yet. -/
theorem parseArguments_loose (hg : LooselyReads group) {closed : Bool} {part : Region}
    {parts : List Region}
    (hp : (part :: parts).Pairwise (fun r _ => r.edge.isInputEnd = false))
    (hclosed : closed = true → ∀ r ∈ part :: parts, r.edge.isInputEnd = false)
    {as : List (List Expr)} (h : parseArguments group closed (part :: parts) = value as) :
    (closed = false ∧ joinedValues part parts = [] ∧ as = []) ∨
      ∃ ws, LooseArguments ws as ∧
        Completes (!closed) (joinedValues part parts ++ closing closed)
          (ws ++ [.punct .closeParen]) := by
  induction parts generalizing part as with
  | nil =>
    rw [parseArguments] at h
    split at h
    next hempty =>
      cases closed with
      | true => simp [bind_eq_value_iff] at h
      | false =>
        obtain rfl := pure_eq_value_iff.mp h
        exact .inl ⟨rfl, by simpa [joinedValues] using hempty, rfl⟩
    next hne =>
      simp only [parseArguments, bind_eq_value_iff, pure_eq_value_iff] at h
      obtain ⟨a, ha, _, rfl, rfl⟩ := h
      obtain ⟨ws, hw, hc⟩ := hg _ _ ha
      have hv : part.tokens.map Token.value ≠ [] := by simpa using hne
      refine .inr ⟨ws, .last (hc.ne_nil hv) hw, ?_⟩
      have hall := hc.closing fun hcl => hclosed hcl part (List.mem_cons_self ..)
      simpa [joinedValues] using hall
  | cons next parts ih =>
    obtain ⟨hfirst, hlater⟩ := List.pairwise_cons.mp hp
    have hnext := @ih next hlater fun hcl r hr => hclosed hcl r (List.mem_cons_of_mem _ hr)
    rw [parseArguments] at h
    split at h
    next => simp [bind_eq_value_iff] at h
    next hne =>
      simp only [bind_eq_value_iff, pure_eq_value_iff] at h
      obtain ⟨a, ha, as, has, rfl⟩ := h
      obtain ⟨us, hu, hc⟩ := hg _ _ ha
      rw [hfirst next (List.mem_cons_self ..)] at hc
      have hv : part.tokens.map Token.value ≠ [] := by simpa using hne
      have hjoin : joinedValues part (next :: parts) =
          part.tokens.map Token.value ++ .punct .comma :: joinedValues next parts := by
        simp [joinedValues]
      rw [← hc.eq_of_whole] at hu
      obtain ⟨rfl, hnone, rfl⟩ | ⟨ws, hw, hc⟩ := hnext has
      · -- The text ends with the comma behind this argument.
        refine .inr ⟨_, .last hv hu, ?_⟩
        rw [hjoin, hnone]
        simpa [closing] using Completes.comma (part.tokens.map Token.value) 0
      · refine .inr ⟨_, .more hv hu hw, ?_⟩
        rw [hjoin, List.append_assoc, List.append_assoc]
        exact (hc.prepend [.punct .comma]).prepend (part.tokens.map Token.value)

theorem parseArgumentList_loose (hg : LooselyReads group) {closed : Bool} {ts : List Token}
    {edge : Edge} (hclosed : closed = true → edge.isInputEnd = false) {as : List (List Expr)}
    (h : parseArgumentList group closed ⟨ts, edge⟩ = value as) (name : String) :
    ∃ ws, LooseExpr (.identifier name :: .punct .openParen :: ws) (.call name as) ∧
      Completes (!closed) (ts.map Token.value ++ closing closed) ws := by
  simp only [parseArgumentList, Region.parts] at h
  split at h
  next hempty =>
    obtain rfl := pure_eq_value_iff.mp h
    obtain rfl := List.isEmpty_iff.mp hempty
    exact ⟨_, .strict (.emptyCall name), (Completes.whole false []).closing fun _ => rfl⟩
  next hne =>
    have hinner : closed = true →
        ∀ r ∈ (cutAtCommas edge 0 ts).1 :: (cutAtCommas edge 0 ts).2,
          r.edge.isInputEnd = false := by
      intro hc r hr
      rw [← Bool.not_eq_true]
      intro hend
      have hedge := cutAtCommas_isInputEnd r hr hend
      simp [hclosed hc] at hedge
    have hall := parseArguments_loose hg (cutAtCommas_pairwise edge 0 ts) hinner h
    rw [joinedValues_cutAtCommas] at hall
    obtain ⟨_, hnone, _⟩ | ⟨ws, hw, hc⟩ := hall
    · simp [List.map_eq_nil_iff.mp hnone] at hne
    · exact ⟨_, .call name hw, hc⟩

theorem parseCall_loose (hg : LooselyReads group) {edge : Edge} {name : String}
    {ts rest : List Token} {o : Option Expr}
    (h : parseCall true group edge name ts = ⟨value o, rest⟩) :
    ∃ e us ws, o = some e ∧ ts = us ++ rest ∧ LooseExpr (.identifier name :: ws) e ∧
      Completes (edge.isInputEnd && rest.isEmpty) (us.map Token.value) ws := by
  cases ts with
  | nil =>
    simp only [parseCall, Bool.not_true, Bool.false_eq_true, ↓reduceIte, Parsed.mk.injEq,
      pure_eq_value_iff] at h
    obtain ⟨rfl, rfl⟩ := h
    exact ⟨_, [], [], rfl, rfl, .name name, .whole _ _⟩
  | cons t ts =>
    simp only [parseCall] at h
    split at h
    next ht =>
      rw [Token.isPunct_iff] at ht
      obtain ⟨as, rfl, ⟨inside, close, rfl, hclose, has⟩ | ⟨_, hend, rfl, has⟩⟩ :=
        parseOpenCall_eq_value h
      · obtain ⟨ws, hw, hc⟩ := parseArgumentList_loose hg (fun _ => rfl) has name
        have hv : inside.map Token.value ++ closing true = ws := Completes.eq_of_whole hc
        rw [← hv] at hw
        refine ⟨_, t :: (inside ++ [close]), _, rfl, by simp, hw, ?_⟩
        simpa [ht, hclose, closing] using Completes.whole _ _
      · obtain ⟨ws, hw, hc⟩ := parseArgumentList_loose hg (by simp) has name
        refine ⟨_, t :: ts, _, rfl, by simp, hw, ?_⟩
        simpa [ht, hend, closing] using hc.prepend [.punct .openParen]
    next => simp [bind_eq_value_iff] at h

/-- Whatever is read in silence is an expression of the looser grammar. Only what nothing follows
is cut off. -/
theorem parseExpression_loose (hg : LooselyReads group) {edge : Edge} {t : Token}
    {ts rest : List Token} {o : Option Expr}
    (h : parseExpression true group edge t ts = ⟨value o, rest⟩) :
    ∃ e us ws, o = some e ∧ t :: ts = us ++ rest ∧ LooseExpr ws e ∧
      Completes (edge.isInputEnd && rest.isEmpty) (us.map Token.value) ws := by
  unfold parseExpression at h
  split at h
  next s ht =>
    simp only [Parsed.mk.injEq, pure_eq_value_iff] at h
    obtain ⟨rfl, rfl⟩ := h
    refine ⟨_, [t], _, rfl, rfl, .strict (.text s), ?_⟩
    simpa [ht] using Completes.whole _ _
  next name ht =>
    obtain ⟨e, us, ws, rfl, rfl, he, hc⟩ := parseCall_loose hg h
    refine ⟨e, t :: us, _, rfl, rfl, he, ?_⟩
    simpa [ht] using hc.prepend [.identifier name]
  next ht =>
    obtain ⟨es, us, inside, offset, rfl, rfl, hes, hno, hu⟩ := parseAngleGroup_eq_value h
    refine ⟨_, t :: us, _, rfl, rfl, .group (hg.inner hes) hno, ?_⟩
    simpa [ht, hu] using Completes.whole _ _
  next ht =>
    obtain ⟨e, us, rfl, rfl, he, _⟩ := parseImperative_sound h
    refine ⟨e, t :: us, _, rfl, rfl, .strict he, ?_⟩
    simpa [ht] using Completes.whole _ _
  next ht =>
    obtain ⟨e, us, rfl, rfl, ⟨he, _⟩ | ⟨s, vs, es, inside, offset, rfl, hs, hes, hu⟩⟩ :=
      parseOptional_eq_value h
    · refine ⟨e, t :: us, _, rfl, rfl, .strict he, ?_⟩
      simpa [ht] using Completes.whole _ _
    · refine ⟨_, t :: us, _, rfl, rfl, .groupDefault hs (hg.inner hes), ?_⟩
      simpa [ht, hu] using Completes.whole _ _
  next => simp [bind_eq_value_iff] at h

theorem parseExpressions_loose (hg : LooselyReads group) {edge : Edge} {ts : List Token}
    {g : List Expr} (h : parseExpressions true group edge ts = value g) :
    ∃ ws, LooseGroup ws g ∧ Completes edge.isInputEnd (ts.map Token.value) ws := by
  induction hlen : ts.length using Nat.strongRecOn generalizing ts g with
  | ind n ih =>
    cases ts with
    | nil =>
      rw [parseExpressions_nil, value_inj] at h
      subst h
      exact ⟨[], .nil, .whole _ _⟩
    | cons t ts =>
      simp only [parseExpressions_cons, andThen_eq_value_iff, value_inj] at h
      obtain ⟨o, ho, es, hes, rfl⟩ := h
      obtain ⟨e, us, ws, rfl, hts, he, hc⟩ := parseExpression_loose hg
        (show parseExpression true group edge t ts = ⟨value o, _⟩ by rw [← ho])
      have hlt := (parseExpression_rest_suffix true group edge t ts).length_le
      obtain ⟨ws', hes', hc'⟩ := ih _ (by simp only [List.length_cons] at hlen; omega) hes rfl
      generalize (parseExpression true group edge t ts).rest = rest at *
      rw [hts, List.map_append]
      cases rest with
      | nil =>
        rw [parseExpressions_nil, value_inj] at hes
        subst hes
        exact ⟨ws ++ [], .cons he .nil, by simpa using hc⟩
      | cons r rest =>
        -- What something follows is not cut off.
        rw [List.isEmpty_cons, Bool.and_false] at hc
        rw [hc.eq_of_whole]
        exact ⟨ws ++ ws', .cons he hes', hc'.prepend ws⟩

end

theorem parseGroup_loose (budget : Nat) : LooselyReads (parseGroup true budget) := by
  induction budget with
  | zero => exact fun r g h => absurd h (abort_ne_value _ g)
  | succ budget ih => exact fun r g h => parseExpressions_loose ih h

end CommandTemplate
