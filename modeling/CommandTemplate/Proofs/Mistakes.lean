import CommandTemplate.Compilation
import CommandTemplate.Proofs.Coverage
import CommandTemplate.Proofs.Lookahead

namespace CommandTemplate

open Logged

/-- Tokens that end at `limit` or before. -/
def EndBy (limit : Nat) (ts : List Token) : Prop :=
  ∀ t ∈ ts, t.start ≤ limit ∧ t.stop ≤ limit

theorem EndBy.span_stop_le {limit : Nat} {ts : List Token} {t : Token} (h : EndBy limit ts)
    (ht : t ∈ ts) : t.span.stop ≤ limit := by
  have hends := h t ht
  simp only [Token.span, Span.stop]
  omega

theorem exists_endBy (offset : Nat) (ts : List Token) :
    ∃ limit, offset ≤ limit ∧ EndBy limit ts := by
  induction ts with
  | nil => exact ⟨offset, Nat.le_refl _, by simp [EndBy]⟩
  | cons t ts ih =>
    obtain ⟨limit, hoffset, hts⟩ := ih
    refine ⟨max limit (max t.start t.stop), by omega, List.forall_mem_cons.mpr ⟨by omega, ?_⟩⟩
    intro u hu
    have hends := hts u hu
    omega

/-- A mistake at a stretch that ends at `limit` or before. It quotes nothing, or one of the given
tokens at its place. -/
structure FoundAmong (known : List Token) (limit : Nat) (p : Problem) (span : Span) : Prop where
  inside : span.stop ≤ limit
  quoted : ∀ v, p = .notUnderstood v → ∃ t ∈ known, t.value = v ∧ t.span = span

/-- The problems of a text that ends too early. -/
def Problem.isUnfinished : Problem → Bool
  | .general .closeParenExpected => true
  | .general .bothParensExpected => true
  | .general .questionMarkExpected => true
  | .unclosed _ => true
  | _ => false

theorem Problem.ne_notUnderstood_of_isUnfinished {p : Problem} (h : p.isUnfinished = true)
    (v : TokenValue) : p ≠ .notUnderstood v := by
  rintro rfl
  cases h

/-- What parsing up to an edge gives up for, whatever the tokens. -/
def Edge.Fatal (e : Edge) (p : Problem) : Prop :=
  p = .general .nestingTooDeep ∨ e.isInputEnd = true ∧ p.isUnfinished = true

theorem Edge.Fatal.code_ne {e : Edge} {p : Problem} (h : e.Fatal p) :
    p.code ≠ .expressionExpected := by
  rcases h with rfl | ⟨_, hp⟩
  · simp [Problem.code]
  · intro hc
    cases p with
    | general code =>
      subst hc
      simp [Problem.isUnfinished] at hp
    | notUnderstood value => simp [Problem.code] at hc
    | unclosed marker => simp [Problem.code] at hc

theorem Edge.Fatal.ne_notUnderstood {e : Edge} {p : Problem} (h : e.Fatal p) (v : TokenValue) :
    p ≠ .notUnderstood v := by
  rcases h with rfl | ⟨_, hp⟩
  · simp
  · exact Problem.ne_notUnderstood_of_isUnfinished hp v

/-- Inside the text only the nesting is fatal. -/
theorem Edge.Fatal.eq_nestingTooDeep {offset : Nat} {p : Problem}
    (h : (Edge.before offset).Fatal p) : p = .general .nestingTooDeep := by
  rcases h with h | ⟨h, _⟩
  · exact h
  · cases h

theorem Edge.fatal_of_before {offset : Nat} {p : Problem} (e : Edge)
    (h : (Edge.before offset).Fatal p) : e.Fatal p :=
  .inl h.eq_nestingTooDeep

namespace Logged

variable {α β : Type} {known : List Token} {limit : Nat} {Q : Problem → Prop}

/-- What is reported are mistakes among the given tokens, and giving up is for problems `Q` only. -/
structure Confined (known : List Token) (limit : Nat) (Q : Problem → Prop) (x : Logged α) :
    Prop where
  reported : ∀ d ∈ x.log, ∃ p span, d = .ofProblem p span ∧ FoundAmong known limit p span
  fatal : ∀ p, x.result = .error p → Q p

theorem Confined.value (a : α) : (value a).Confined known limit Q :=
  ⟨by simp [Logged.value], by simp [Logged.value]⟩

theorem Confined.pure (a : α) : (pure a : Logged α).Confined known limit Q :=
  .value a

theorem Confined.andThen {x : Logged α} {f : α → Logged β} (hx : x.Confined known limit Q)
    (hf : ∀ a, (f a).Confined known limit Q) : (x.andThen f).Confined known limit Q := by
  unfold Logged.andThen
  split
  next p hp =>
    refine ⟨hx.reported, ?_⟩
    intro q hq
    cases hq
    exact hx.fatal p hp
  next a ha =>
    refine ⟨?_, (hf a).fatal⟩
    intro d hd
    rcases List.mem_append.mp hd with hd | hd
    · exact hx.reported d hd
    · exact (hf a).reported d hd

theorem Confined.bind {x : Logged α} {f : α → Logged β} (hx : x.Confined known limit Q)
    (hf : ∀ a, (f a).Confined known limit Q) : (x >>= f).Confined known limit Q :=
  hx.andThen hf

theorem Confined.mono {Q' : Problem → Prop} {x : Logged α} (h : x.Confined known limit Q)
    (hq : ∀ p, Q p → Q' p) : x.Confined known limit Q' :=
  ⟨h.reported, fun p hp => hq p (h.fatal p hp)⟩

theorem Confined.problem {p : Problem} {span : Span} (h : FoundAmong known limit p span) :
    (problem p span).Confined known limit Q := by
  refine ⟨?_, by simp [Logged.problem, report]⟩
  intro d hd
  obtain rfl := List.mem_singleton.mp hd
  exact ⟨p, span, rfl, h⟩

theorem Confined.abort {p : Problem} (h : Q p) : (abort p : Logged α).Confined known limit Q :=
  ⟨by simp [Logged.abort], by simpa [Logged.abort] using h⟩

end Logged

section

variable {known : List Token} {limit : Nat} {Q : Problem → Prop}

theorem mistake_confined {code : Code} {span : Span} (h : span.stop ≤ limit) :
    (mistake code span).Confined known limit Q :=
  .problem ⟨h, by simp⟩

theorem mistake_place_confined {code : Code} {offset : Nat} (h : offset ≤ limit) :
    (mistake code (.place offset)).Confined known limit Q :=
  mistake_confined h

theorem Edge.missing_confined {e : Edge} {p : Problem} (he : e.offset ≤ limit)
    (h : p.isUnfinished = true) : (e.missing p).Confined known limit e.Fatal := by
  cases e with
  | inputEnd length => exact .abort (.inr ⟨rfl, h⟩)
  | before offset =>
    exact .problem ⟨he, fun v hv => absurd hv (p.ne_notUnderstood_of_isUnfinished h v)⟩

/-- A reader of groups finds mistakes among the given tokens only, and gives up at the edge of a
group only, or because of the nesting. -/
def ConfinesGroups (known : List Token) (limit : Nat) (group : GroupReader) : Prop :=
  ∀ r, r.tokens ⊆ known → r.edge.offset ≤ limit → (group r).Confined known limit r.edge.Fatal

theorem ConfinesGroups.inner {group : GroupReader} (hg : ConfinesGroups known limit group)
    {ts : List Token} (hts : ts ⊆ known) {offset : Nat} (ho : offset ≤ limit) (edge : Edge) :
    (group ⟨ts, .before offset⟩).Confined known limit edge.Fatal :=
  (hg ⟨ts, .before offset⟩ hts ho).mono fun _ => edge.fatal_of_before

theorem parseArguments_confined {group : GroupReader} {closed : Bool} {parts : List Region}
    (hp : ∀ r ∈ parts, r.edge.offset ≤ limit ∧ (group r).Confined known limit Q) :
    (parseArguments group closed parts).Confined known limit Q := by
  induction parts with
  | nil => exact .pure []
  | cons r parts ih =>
    obtain ⟨⟨he, hr⟩, hlater⟩ := List.forall_mem_cons.mp hp
    simp only [parseArguments]
    split
    next =>
      split
      next => exact .pure []
      next => exact .bind (mistake_place_confined (by omega)) fun _ => ih hlater
    next => exact .bind hr fun _ => .bind (ih hlater) fun _ => .pure _

-- The tokens and the limit stay the same from here on, while the regions that are read get smaller:
-- what bounds a place inside one is a token, or the edge of a region around it.
variable (hk : EndBy limit known)
include hk

theorem notUnderstood_confined {t : Token} (ht : t ∈ known) :
    (notUnderstood t).Confined known limit Q := by
  refine .problem ⟨hk.span_stop_le ht, ?_⟩
  intro v hv
  cases hv
  exact ⟨t, ht, rfl, rfl⟩

theorem noneUnderstood_confined {ts : List Token} (hts : ts ⊆ known) :
    (noneUnderstood ts).Confined known limit Q := by
  induction ts with
  | nil => exact .pure ()
  | cons t ts ih =>
    obtain ⟨ht, hrest⟩ := List.cons_subset.mp hts
    exact .bind (notUnderstood_confined hk ht) fun _ => ih hrest

theorem parseBound_confined {hyphenFollows : Bool} {t : Token} (ht : t ∈ known) :
    (parseBound hyphenFollows t).Confined known limit Q := by
  have hmistake : ∀ code, (mistake code t.span >>= fun _ => pure none :
      Logged (Option (Option Nat))).Confined known limit Q :=
    fun code => .bind (mistake_confined (hk.span_stop_le ht)) fun _ => .pure none
  unfold parseBound
  split
  next => exact hmistake _
  next => exact .pure _
  next =>
    split
    next => exact hmistake _
    split
    next => exact hmistake _
    next => exact .pure _
  next => exact hmistake _

theorem parseHyphen_confined {t : Token} (ht : t ∈ known) :
    (parseHyphen t).Confined known limit Q := by
  unfold parseHyphen
  split
  next => exact .pure true
  next => exact .bind (mistake_place_confined (hk t ht).1) fun _ => .pure false

theorem parseBody_confined {ts : List Token} (hts : ts ⊆ known) :
    (parseBody ts).Confined known limit Q := by
  match ts with
  | [] => exact .pure none
  | [a] => exact .bind (parseBound_confined hk (hts (by simp))) fun _ => .pure _
  | [a, h] =>
    refine .bind (parseBound_confined hk (hts (by simp))) fun _ => ?_
    exact .bind (parseHyphen_confined hk (hts (by simp))) fun _ => .pure _
  | a :: h :: b :: extra =>
    have hextra : extra ⊆ known := fun t ht => hts (by simp [ht])
    refine .bind (parseBound_confined hk (hts (by simp))) fun _ => ?_
    refine .bind (parseHyphen_confined hk (hts (by simp))) fun _ => ?_
    refine .bind (parseBound_confined hk (hts (by simp))) fun _ => ?_
    exact .bind (noneUnderstood_confined hk hextra) fun _ => .pure _

/-- A body that ends is always read to its end. -/
theorem parseClosedBody_confined {start : Nat} {inner : List Token} {terminator : Token}
    (hstart : start ≤ limit) (hinner : inner ⊆ known) (hend : terminator ∈ known) :
    (parseClosedBody start inner terminator).Confined known limit Q := by
  have hends := hk terminator hend
  have hchecked : ∀ s : Substitution, (if s.reversed then do
      mistake .reversedRange ⟨start, terminator.stop - start⟩
      pure none
    else pure (some s) : Logged (Option Substitution)).Confined known limit Q := by
    intro s
    split
    next =>
      refine .bind (mistake_confined ?_) fun _ => .pure none
      simp only [Span.stop]
      omega
    next => exact .pure (some s)
  unfold parseClosedBody
  split
  next =>
    refine .bind (mistake_place_confined hends.1) fun _ => ?_
    refine .bind (parseBody_confined hk hinner) fun o => ?_
    cases o with
    | none => exact .pure none
    | some s => exact hchecked s
  next =>
    refine .bind (parseBody_confined hk hinner) fun o => ?_
    cases o with
    | none => exact .pure none
    | some s => exact hchecked s

theorem parseUnclosedBody_confined {marker : Marker} {edge : Edge} {inner : List Token}
    (he : edge.offset ≤ limit) (hinner : inner ⊆ known) :
    (parseUnclosedBody marker edge inner).Confined known limit edge.Fatal := by
  refine .bind (parseBody_confined hk hinner) fun _ => ?_
  exact .bind (Edge.missing_confined he rfl) fun _ => .pure none

theorem parseImperative_confined {edge : Edge} {start : Nat} {ts : List Token}
    (he : edge.offset ≤ limit) (hstart : start ≤ limit) (hts : ts ⊆ known) :
    (parseImperative edge start ts).outcome.Confined known limit edge.Fatal := by
  have hinner := List.Subset.trans (takeUntil_subset Marker.imperative.endsBody ts) hts
  unfold parseImperative
  dsimp only
  split
  next => exact parseUnclosedBody_confined hk he hinner
  next terminator rest hd =>
    have hend := hts (dropUntil_subset hd (List.mem_cons_self ..))
    exact .bind (parseClosedBody_confined hk hstart hinner hend) fun _ => .pure _

theorem parseDefaultEnd_confined {edge : Edge} {value : Logged Expr} {ts : List Token}
    (he : edge.offset ≤ limit) (hv : value.Confined known limit Q) (hts : ts ⊆ known) :
    (parseDefaultEnd edge value ts).outcome.Confined known limit Q := by
  cases ts with
  | nil => exact .bind hv fun _ => .bind (mistake_place_confined he) fun _ => .pure none
  | cons t ts =>
    simp only [parseDefaultEnd]
    split
    next => exact .bind hv fun _ => .pure _
    next =>
      have ht := hk.span_stop_le (hts (List.mem_cons_self ..))
      exact .bind hv fun _ => .bind (mistake_confined ht) fun _ => .pure none

theorem skipDefault_confined {edge : Edge} {colon : Token} {ts : List Token}
    (he : edge.offset ≤ limit) (hcolon : colon ∈ known) (hts : ts ⊆ known) :
    (skipDefault edge colon ts).outcome.Confined known limit edge.Fatal := by
  have hskipped := List.Subset.trans (takeUntil_subset (·.isPunct .question) ts) hts
  unfold skipDefault
  dsimp only
  split
  next =>
    refine .bind (mistake_place_confined (hk colon hcolon).2) fun _ => ?_
    refine .bind (noneUnderstood_confined hk hskipped) fun _ => ?_
    exact .bind (Edge.missing_confined he rfl) fun _ => .pure none
  next =>
    refine .bind (mistake_place_confined (hk colon hcolon).2) fun _ => ?_
    exact .bind (noneUnderstood_confined hk hskipped) fun _ => .pure none

theorem parseDefault_confined {group : GroupReader} (hg : ConfinesGroups known limit group)
    {edge : Edge} {colon : Token} {ts : List Token} (he : edge.offset ≤ limit)
    (hcolon : colon ∈ known) (hts : ts ⊆ known) :
    (parseDefault group edge colon ts).outcome.Confined known limit edge.Fatal := by
  cases ts with
  | nil => exact .bind (mistake_place_confined he) fun _ => .pure none
  | cons t ts =>
    obtain ⟨_, hrest⟩ := List.cons_subset.mp hts
    have hinside := List.Subset.trans (takeEnclosed_subset 0 ts) hrest
    simp only [parseDefault]
    split
    next => exact parseDefaultEnd_confined hk he (.pure _) hrest
    next =>
      split
      next =>
        refine .bind (mistake_place_confined he) fun _ => ?_
        exact .bind (hg ⟨_, edge⟩ hinside he) fun _ => .pure none
      next close rest hd =>
        obtain ⟨hclose, hafter⟩ :=
          List.cons_subset.mp (List.Subset.trans (dropEnclosed_subset hd) hrest)
        refine parseDefaultEnd_confined hk he ?_ hafter
        exact .bind (hg.inner hinside (hk close hclose).1 edge) fun _ => .pure _
    next => exact skipDefault_confined hk he hcolon hts

theorem parseOptional_confined {group : GroupReader} (hg : ConfinesGroups known limit group)
    {edge : Edge} {start : Nat} {ts : List Token} (he : edge.offset ≤ limit)
    (hstart : start ≤ limit) (hts : ts ⊆ known) :
    (parseOptional group edge start ts).outcome.Confined known limit edge.Fatal := by
  have hinner := List.Subset.trans (takeUntil_subset Marker.optional.endsBody ts) hts
  unfold parseOptional
  dsimp only
  split
  next => exact parseUnclosedBody_confined hk he hinner
  next terminator rest hd =>
    obtain ⟨hend, hrest⟩ := List.cons_subset.mp (List.Subset.trans (dropUntil_subset hd) hts)
    split
    next =>
      refine .bind (parseClosedBody_confined hk hstart hinner hend) fun s => ?_
      refine .bind (parseDefault_confined hk hg he hend hrest) fun o => ?_
      cases o <;> exact .pure _
    next => exact .bind (parseClosedBody_confined hk hstart hinner hend) fun _ => .pure _

theorem parseArgumentList_confined {group : GroupReader} (hg : ConfinesGroups known limit group)
    (closed : Bool) {r : Region} (hr : r.tokens ⊆ known) (he : r.edge.offset ≤ limit) :
    (parseArgumentList group closed r).Confined known limit r.edge.Fatal := by
  unfold parseArgumentList
  split
  next => exact .pure []
  next =>
    refine parseArguments_confined fun s hs => ?_
    have htokens := List.Subset.trans (cutAtCommas_subset _ _ _ s hs) hr
    -- A part ends where the region does, or before a comma of it.
    rcases cutAtCommas_edge s hs with hedge | ⟨comma, hcomma, hedge⟩
    · rw [← hedge] at he ⊢
      exact ⟨he, hg s htokens he⟩
    · have hoffset : s.edge.offset ≤ limit := hedge ▸ (hk comma (hr hcomma)).1
      refine ⟨hoffset, (hg s htokens hoffset).mono fun p hp => ?_⟩
      exact r.edge.fatal_of_before (hedge ▸ hp)

theorem parseOpenCall_confined {lenient : Bool} {group : GroupReader}
    (hg : ConfinesGroups known limit group) {edge : Edge} {name : String} {ts : List Token}
    (he : edge.offset ≤ limit) (hts : ts ⊆ known) :
    (parseOpenCall lenient group edge name ts).outcome.Confined known limit edge.Fatal := by
  have hinside := List.Subset.trans (takeEnclosed_subset 0 ts) hts
  unfold parseOpenCall
  dsimp only
  split
  next =>
    refine .bind (parseArgumentList_confined (r := ⟨_, edge⟩) hk hg false hinside he) fun _ => ?_
    split
    next => exact .bind (Edge.missing_confined he rfl) fun _ => .pure _
    next => exact .pure _
  next close rest hd =>
    have hclose := hts (dropEnclosed_subset hd (List.mem_cons_self ..))
    have hlist := parseArgumentList_confined (r := ⟨_, .before close.start⟩) hk hg true hinside
      (hk close hclose).1
    exact .bind (hlist.mono fun _ => edge.fatal_of_before) fun _ => .pure _

theorem parseCall_confined {lenient : Bool} {group : GroupReader}
    (hg : ConfinesGroups known limit group) {edge : Edge} {name : String} {ts : List Token}
    (he : edge.offset ≤ limit) (hts : ts ⊆ known) :
    (parseCall lenient group edge name ts).outcome.Confined known limit edge.Fatal := by
  cases ts with
  | nil =>
    simp only [parseCall]
    split
    next => exact .bind (Edge.missing_confined he rfl) fun _ => .pure _
    next => exact .pure _
  | cons t ts =>
    obtain ⟨ht, hrest⟩ := List.cons_subset.mp hts
    simp only [parseCall]
    split
    next => exact parseOpenCall_confined hk hg he hrest
    next =>
      refine .bind (mistake_place_confined (hk t ht).1) fun _ => ?_
      exact parseOpenCall_confined hk hg he hts

theorem parseAngleGroup_confined {group : GroupReader} (hg : ConfinesGroups known limit group)
    {edge : Edge} {ts : List Token} (he : edge.offset ≤ limit) (hts : ts ⊆ known) :
    (parseAngleGroup group edge ts).outcome.Confined known limit edge.Fatal := by
  have hinside := List.Subset.trans (takeUntil_subset (·.isPunct .closeAngle) ts) hts
  unfold parseAngleGroup
  dsimp only
  split
  next =>
    refine .bind (mistake_place_confined he) fun _ => ?_
    exact .bind (hg ⟨_, edge⟩ hinside he) fun _ => .pure _
  next close rest hd =>
    have hclose := hts (dropUntil_subset hd (List.mem_cons_self ..))
    exact .bind (hg.inner hinside (hk close hclose).1 edge) fun _ => .pure _

theorem parseExpression_confined {lenient : Bool} {group : GroupReader}
    (hg : ConfinesGroups known limit group) {edge : Edge} {t : Token} {ts : List Token}
    (he : edge.offset ≤ limit) (hts : t :: ts ⊆ known) :
    (parseExpression lenient group edge t ts).outcome.Confined known limit edge.Fatal := by
  obtain ⟨ht, hrest⟩ := List.cons_subset.mp hts
  have hstart := (hk t ht).1
  unfold parseExpression
  split
  next => exact .pure _
  next => exact parseCall_confined hk hg he hrest
  next => exact parseAngleGroup_confined hk hg he hrest
  next => exact parseImperative_confined hk he hstart hrest
  next => exact parseOptional_confined hk hg he hstart hrest
  next => exact .bind (notUnderstood_confined hk ht) fun _ => .pure none

theorem parseExpressions_confined {lenient : Bool} {group : GroupReader}
    (hg : ConfinesGroups known limit group) {edge : Edge} {ts : List Token}
    (he : edge.offset ≤ limit) (hts : ts ⊆ known) :
    (parseExpressions lenient group edge ts).Confined known limit edge.Fatal := by
  match ts with
  | [] =>
    rw [parseExpressions_nil]
    exact .value []
  | t :: ts =>
    have hsuffix := parseExpression_rest_suffix lenient group edge t ts
    have hlen := hsuffix.length_le
    have hrest := List.Subset.trans hsuffix.subset (List.cons_subset.mp hts).2
    rw [parseExpressions_cons]
    refine .andThen (parseExpression_confined hk hg he hts) fun _ => ?_
    exact .andThen (parseExpressions_confined hg he hrest) fun _ => .value _
termination_by ts.length

theorem parseGroup_confines (lenient : Bool) (budget : Nat) :
    ConfinesGroups known limit (parseGroup lenient budget) := by
  induction budget with
  | zero => exact fun r _ _ => .abort (.inl rfl)
  | succ budget ih => exact fun r hr he => parseExpressions_confined hk ih he hr

end

/-- Whatever the tokens, parsing gives up only where the text ends, or because of the nesting. -/
theorem parseGroup_fatal {lenient : Bool} {budget : Nat} {r : Region} {p : Problem}
    (h : (parseGroup lenient budget r).result = .error p) : r.edge.Fatal p := by
  obtain ⟨limit, he, hk⟩ := exists_endBy r.edge.offset r.tokens
  exact (parseGroup_confines hk lenient budget r (List.Subset.refl _) he).fatal p h

theorem scan_endBy (dialect : Dialect) (text : String) :
    EndBy text.toList.length (scan dialect text) := by
  intro t ht
  have hb := (scan_tiles dialect text).bounds t ht
  omega

theorem parseTokens_confined (options : Options) (text : String) :
    (parseTokens options.allowUnterminated (scan options.dialect text)
        text.toList.length).Confined (scan options.dialect text) text.toList.length
      (Edge.inputEnd text.toList.length).Fatal :=
  parseGroup_confines (scan_endBy options.dialect text) _ _ ⟨_, .inputEnd _⟩
    (List.Subset.refl _) (Nat.le_refl _)

/-- Diagnostics were reported by the parser, or say why it gave up. -/
theorem mem_diagnostics {options : Options} {text : String} {d : Diagnostic}
    (hd : d ∈ (compile options text).diagnostics) :
    d ∈ (parseTokens options.allowUnterminated (scan options.dialect text)
        text.toList.length).log ∨
      ∃ p, (parseTokens options.allowUnterminated (scan options.dialect text)
        text.toList.length).result = .error p ∧ d = giveUp text.toList.length p := by
  unfold compile at hd
  dsimp only at hd
  split at hd
  next => exact .inl hd
  next p hp =>
    rcases List.mem_append.mp hd with hd | hd
    · exact .inl hd
    · exact .inr ⟨p, hp, List.mem_singleton.mp hd⟩

/-- Whatever is said about a text is a mistake inside it, and quotes its tokens only. -/
theorem exists_found {options : Options} {text : String} {d : Diagnostic}
    (hd : d ∈ (compile options text).diagnostics) :
    ∃ p span, d = .ofProblem p span ∧
      FoundAmong (scan options.dialect text) text.toList.length p span := by
  have hconfined := parseTokens_confined options text
  rcases mem_diagnostics hd with hd | ⟨p, hp, rfl⟩
  · exact hconfined.reported d hd
  · have hquoted := (hconfined.fatal p hp).ne_notUnderstood
    exact ⟨p, _, rfl, Nat.sub_le _ 1, fun v hv => absurd hv (hquoted v)⟩

end CommandTemplate
