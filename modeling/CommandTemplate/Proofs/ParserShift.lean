import CommandTemplate.Proofs.Lookahead
import CommandTemplate.Proofs.ScannerShift
import CommandTemplate.Region.Group

namespace CommandTemplate

def Edge.shift (k : Nat) : Edge → Edge
  | .inputEnd length => .inputEnd (length + k)
  | .before offset => .before (offset + k)

@[simp] theorem Edge.shift_offset (k : Nat) (e : Edge) : (e.shift k).offset = e.offset + k := by
  cases e <;> rfl

@[simp] theorem Edge.shift_isInputEnd (k : Nat) (e : Edge) :
    (e.shift k).isInputEnd = e.isInputEnd := by
  cases e <;> rfl

/-- The same region, `k` characters further on. -/
def Region.shift (k : Nat) (r : Region) : Region :=
  ⟨r.tokens.map (Token.shift k), r.edge.shift k⟩

namespace Logged

variable {α β : Type} (k : Nat)

/-- The same reports, `k` characters further on. -/
def shift (x : Logged α) : Logged α :=
  ⟨x.log.map (Diagnostic.shift k), x.result⟩

theorem pure_shift (a : α) : (pure a : Logged α).shift k = pure a := rfl

theorem andThen_shift (x : Logged α) (f : α → Logged β) :
    (x.andThen f).shift k = (x.shift k).andThen fun a => (f a).shift k := by
  cases x with
  | mk log result => cases result <;> simp [andThen, shift]

theorem bind_shift (x : Logged α) (f : α → Logged β) :
    (x >>= f).shift k = x.shift k >>= fun a => (f a).shift k :=
  andThen_shift k x f

theorem mistake_shift (code : Code) (span : Span) :
    (mistake code span).shift k = mistake code (span.shift k) := rfl

theorem mistake_place_shift (code : Code) (offset : Nat) :
    (mistake code (.place offset)).shift k = mistake code (.place (offset + k)) := rfl

end Logged

open Logged

/-- What a construct yields, `k` characters further on. -/
def Parsed.shift (k : Nat) (p : Parsed) : Parsed :=
  ⟨p.outcome.shift k, p.rest.map (Token.shift k)⟩

@[simp] theorem Token.shift_isPunct (k : Nat) (t : Token) (p : Punct) :
    (t.shift k).isPunct p = t.isPunct p := rfl

@[simp] theorem Token.shift_start (k : Nat) (t : Token) : (t.shift k).start = t.start + k := rfl

@[simp] theorem Token.shift_stop (k : Nat) (t : Token) : (t.shift k).stop = t.stop + k := rfl

@[simp] theorem Token.shift_span (k : Nat) (t : Token) : (t.shift k).span = t.span.shift k := by
  simp [Token.span, Span.shift, Nat.add_sub_add_right]

section

variable (k : Nat)

theorem notUnderstood_shift (t : Token) :
    notUnderstood (t.shift k) = (notUnderstood t).shift k := by
  rw [notUnderstood, Token.shift_span, Token.shift_value]
  rfl

theorem noneUnderstood_shift (ts : List Token) :
    noneUnderstood (ts.map (Token.shift k)) = (noneUnderstood ts).shift k := by
  induction ts with
  | nil => rfl
  | cons t ts ih =>
    rw [List.map_cons, noneUnderstood, noneUnderstood, bind_shift, notUnderstood_shift, ih]

theorem Edge.missing_shift (e : Edge) (p : Problem) :
    (e.shift k).missing p = (e.missing p).shift k := by
  cases e <;> rfl

theorem takeUntil_shift {p : Token → Bool} (hp : ∀ t, p (t.shift k) = p t) (ts : List Token) :
    takeUntil p (ts.map (Token.shift k)) = (takeUntil p ts).map (Token.shift k) := by
  simp only [takeUntil, List.takeWhile_map, Function.comp_def, hp]

theorem dropUntil_shift {p : Token → Bool} (hp : ∀ t, p (t.shift k) = p t) (ts : List Token) :
    dropUntil p (ts.map (Token.shift k)) = (dropUntil p ts).map (Token.shift k) := by
  simp only [dropUntil, List.dropWhile_map, Function.comp_def, hp]

theorem takeEnclosed_shift (depth : Nat) (ts : List Token) :
    takeEnclosed depth (ts.map (Token.shift k)) = (takeEnclosed depth ts).map (Token.shift k) := by
  induction ts generalizing depth with
  | nil => rfl
  | cons t ts ih =>
    have hd : (t.shift k).depthAfter depth = t.depthAfter depth := rfl
    simp only [List.map_cons, takeEnclosed, Token.shift_isPunct, hd, ih]
    split <;> rfl

theorem dropEnclosed_shift (depth : Nat) (ts : List Token) :
    dropEnclosed depth (ts.map (Token.shift k)) = (dropEnclosed depth ts).map (Token.shift k) := by
  induction ts generalizing depth with
  | nil => rfl
  | cons t ts ih =>
    have hd : (t.shift k).depthAfter depth = t.depthAfter depth := rfl
    simp only [List.map_cons, dropEnclosed, Token.shift_isPunct, hd, ih]
    split <;> rfl

theorem cutAtCommas_shift (edge : Edge) (depth : Nat) (ts : List Token) :
    cutAtCommas (edge.shift k) depth (ts.map (Token.shift k)) =
      ((cutAtCommas edge depth ts).1.shift k,
        (cutAtCommas edge depth ts).2.map (Region.shift k)) := by
  induction ts generalizing depth with
  | nil => rfl
  | cons t ts ih =>
    have hd : (t.shift k).depthAfter depth = t.depthAfter depth := rfl
    simp only [List.map_cons, cutAtCommas, Token.shift_isPunct, hd, ih]
    split <;> rfl

theorem notBound_shift (hyphenFollows : Bool) (t : Token) :
    notBound hyphenFollows (t.shift k) = (notBound hyphenFollows t).shift k := by
  rw [notBound, Token.shift_span]
  rfl

theorem parseBound_shift (hyphenFollows : Bool) (t : Token) :
    parseBound hyphenFollows (t.shift k) = (parseBound hyphenFollows t).shift k := by
  unfold parseBound
  rw [Token.shift_value, Token.shift_span]
  split
  next => rfl
  next => rfl
  next =>
    split
    next => exact notBound_shift k hyphenFollows t
    split
    next => rfl
    next => rfl
  next => exact notBound_shift k hyphenFollows t

theorem parseHyphen_shift (t : Token) : parseHyphen (t.shift k) = (parseHyphen t).shift k := by
  unfold parseHyphen
  rw [Token.shift_isPunct]
  split <;> rfl

theorem parseBody_shift (ts : List Token) :
    parseBody (ts.map (Token.shift k)) = (parseBody ts).shift k := by
  match ts with
  | [] => rfl
  | [a] =>
    simp only [List.map_cons, List.map_nil, parseBody, bind_shift, parseBound_shift, pure_shift]
  | [a, h] =>
    simp only [List.map_cons, List.map_nil, parseBody, bind_shift, parseBound_shift,
      parseHyphen_shift, Token.shift_isPunct, pure_shift]
  | a :: h :: b :: extra =>
    simp only [List.map_cons, parseBody, bind_shift, parseBound_shift, parseHyphen_shift,
      noneUnderstood_shift, Token.shift_isPunct, pure_shift, List.isEmpty_map]

theorem parseClosedBody_shift (start : Nat) (inner : List Token) (terminator : Token) :
    parseClosedBody (start + k) (inner.map (Token.shift k)) (terminator.shift k) =
      (parseClosedBody start inner terminator).shift k := by
  have hspan : (⟨start + k, terminator.stop + k - (start + k)⟩ : Span) =
      Span.shift k ⟨start, terminator.stop - start⟩ := by
    simp [Span.shift, Nat.add_sub_add_right]
  simp only [parseClosedBody, List.isEmpty_map, Token.shift_start, Token.shift_stop,
    parseBody_shift, hspan]
  split
  next =>
    simp only [bind_shift, mistake_place_shift]
    refine bind_congr fun _ => bind_congr fun o => ?_
    cases o with
    | none => rfl
    | some s => dsimp only; split <;> rfl
  next =>
    simp only [bind_shift]
    refine bind_congr fun o => ?_
    cases o with
    | none => rfl
    | some s => dsimp only; split <;> rfl

theorem parseUnclosedBody_shift (marker : Marker) (edge : Edge) (inner : List Token) :
    parseUnclosedBody marker (edge.shift k) (inner.map (Token.shift k)) =
      (parseUnclosedBody marker edge inner).shift k := by
  simp only [parseUnclosedBody, bind_shift, parseBody_shift, Edge.missing_shift, pure_shift]

theorem Marker.endsBody_shift (m : Marker) (t : Token) :
    m.endsBody (t.shift k) = m.endsBody t := rfl

theorem parseImperative_shift (edge : Edge) (start : Nat) (ts : List Token) :
    parseImperative (edge.shift k) (start + k) (ts.map (Token.shift k)) =
      (parseImperative edge start ts).shift k := by
  simp only [parseImperative, takeUntil_shift k (Marker.endsBody_shift k .imperative),
    dropUntil_shift k (Marker.endsBody_shift k .imperative)]
  cases dropUntil Marker.imperative.endsBody ts with
  | nil => simp only [List.map_nil, parseUnclosedBody_shift, Parsed.shift]
  | cons terminator rest =>
    simp only [List.map_cons, Parsed.shift, bind_shift, parseClosedBody_shift, pure_shift]

/-- Tokens with a character in front of them. -/
def Behind (ts : List Token) : Prop :=
  ∀ t ∈ ts, 1 ≤ t.start

theorem Behind.subset {ts us : List Token} (h : Behind ts) (hu : us ⊆ ts) : Behind us :=
  fun t ht => h t (hu ht)

/-- A region with a character in front of it, so that there is a place before its edge. -/
structure Region.Behind (r : Region) : Prop where
  tokens : CommandTemplate.Behind r.tokens
  edge : 1 ≤ r.edge.offset

/-- Where a region stands makes no difference to how it is read. -/
def Shifts (k : Nat) (group : GroupReader) : Prop :=
  ∀ r, r.Behind → group (r.shift k) = (group r).shift k

theorem Shifts.region {k : Nat} {group : GroupReader} (hg : Shifts k group) {edge : Edge}
    {ts : List Token} (hts : Behind ts) (he : 1 ≤ edge.offset) :
    group ⟨ts.map (Token.shift k), edge.shift k⟩ = (group ⟨ts, edge⟩).shift k :=
  hg ⟨ts, edge⟩ ⟨hts, he⟩

theorem Shifts.inner {k : Nat} {group : GroupReader} (hg : Shifts k group) {offset : Nat}
    {ts : List Token} (hts : Behind ts) (he : 1 ≤ offset) :
    group ⟨ts.map (Token.shift k), .before (offset + k)⟩ = (group ⟨ts, .before offset⟩).shift k :=
  hg ⟨ts, .before offset⟩ ⟨hts, he⟩

theorem parseDefaultEnd_shift (edge : Edge) (value : Logged Expr) (ts : List Token) :
    parseDefaultEnd (edge.shift k) (value.shift k) (ts.map (Token.shift k)) =
      (parseDefaultEnd edge value ts).shift k := by
  cases ts with
  | nil =>
    simp only [List.map_nil, parseDefaultEnd, Parsed.shift, bind_shift, pure_shift, Edge.place,
      Edge.shift_offset, mistake_place_shift]
  | cons t ts =>
    have hd := dropUntil_shift k (p := (·.isPunct .question)) (fun _ => rfl) ts
    by_cases hq : t.isPunct .question = true
    · simp only [List.map_cons, parseDefaultEnd, Token.shift_isPunct, hq, if_true, Parsed.shift,
        bind_shift, pure_shift]
    · simp only [List.map_cons, parseDefaultEnd, Token.shift_isPunct, hq, if_false, Parsed.shift,
        bind_shift, pure_shift, Token.shift_span, mistake_shift, hd, List.map_drop, Bool.false_eq_true]

theorem skipDefault_shift (edge : Edge) (colon : Token) (ts : List Token) :
    skipDefault (edge.shift k) (colon.shift k) (ts.map (Token.shift k)) =
      (skipDefault edge colon ts).shift k := by
  have ht := takeUntil_shift k (p := (·.isPunct .question)) (fun _ => rfl) ts
  have hd := dropUntil_shift k (p := (·.isPunct .question)) (fun _ => rfl) ts
  simp only [skipDefault, ht, hd]
  cases dropUntil (·.isPunct .question) ts with
  | nil =>
    simp only [List.map_nil, Parsed.shift, bind_shift, pure_shift, Token.shift_stop,
      mistake_place_shift, noneUnderstood_shift, Edge.missing_shift]
  | cons t rest =>
    simp only [List.map_cons, Parsed.shift, bind_shift, pure_shift, Token.shift_stop,
      mistake_place_shift, noneUnderstood_shift]

theorem parseDefault_shift {group : GroupReader} (hg : Shifts k group) {edge : Edge}
    (he : 1 ≤ edge.offset) (colon : Token) {ts : List Token} (hts : Behind ts) :
    parseDefault group (edge.shift k) (colon.shift k) (ts.map (Token.shift k)) =
      (parseDefault group edge colon ts).shift k := by
  cases ts with
  | nil =>
    simp only [List.map_nil, parseDefault, Parsed.shift, bind_shift, pure_shift, Edge.place,
      Edge.shift_offset, mistake_place_shift]
  | cons t ts =>
    have hrest : Behind ts := hts.subset (List.subset_cons_self t ts)
    have hinside : Behind (takeEnclosed 0 ts) := hrest.subset (takeEnclosed_subset 0 ts)
    have hskip := skipDefault_shift k edge colon (t :: ts)
    rw [List.map_cons] at hskip
    simp only [List.map_cons, parseDefault, Token.shift_value, takeEnclosed_shift,
      dropEnclosed_shift]
    split
    next s _ => exact parseDefaultEnd_shift k edge (pure (.literal s)) ts
    next =>
      cases hd : dropEnclosed 0 ts with
      | nil =>
        simp only [List.map_nil, Parsed.shift, bind_shift, pure_shift, Edge.place,
          Edge.shift_offset, mistake_place_shift, hg.region hinside he]
      | cons close rest =>
        have hclose := hrest close (dropEnclosed_subset hd (List.mem_cons_self ..))
        have hend := parseDefaultEnd_shift k edge
          (do let es ← group ⟨takeEnclosed 0 ts, .before close.start⟩; pure (.group es)) rest
        simp only [bind_shift, pure_shift] at hend
        simp only [List.map_cons, Token.shift_start, hg.inner hinside hclose]
        exact hend
    next => exact hskip

theorem parseOptional_shift {group : GroupReader} (hg : Shifts k group) {edge : Edge}
    (he : 1 ≤ edge.offset) (start : Nat) {ts : List Token} (hts : Behind ts) :
    parseOptional group (edge.shift k) (start + k) (ts.map (Token.shift k)) =
      (parseOptional group edge start ts).shift k := by
  simp only [parseOptional, takeUntil_shift k (Marker.endsBody_shift k .optional),
    dropUntil_shift k (Marker.endsBody_shift k .optional)]
  cases hd : dropUntil Marker.optional.endsBody ts with
  | nil => simp only [List.map_nil, parseUnclosedBody_shift, Parsed.shift]
  | cons terminator rest =>
    have hrest : Behind rest := hts.subset (List.cons_subset.mp (dropUntil_subset hd)).2
    simp only [List.map_cons, Token.shift_isPunct, parseClosedBody_shift,
      parseDefault_shift k hg he terminator hrest]
    split
    next =>
      simp only [Parsed.shift, bind_shift]
      congr 1
      refine bind_congr fun s => bind_congr fun o => ?_
      cases o <;> rfl
    next => simp only [Parsed.shift, bind_shift, pure_shift]

theorem cutAtCommas_behind {edge : Edge} {depth : Nat} {ts : List Token} (he : 1 ≤ edge.offset)
    (hts : Behind ts) :
    ∀ r ∈ (cutAtCommas edge depth ts).1 :: (cutAtCommas edge depth ts).2, r.Behind := by
  intro r hr
  refine ⟨hts.subset (cutAtCommas_subset _ _ _ r hr), ?_⟩
  rcases cutAtCommas_edge r hr with hedge | ⟨comma, hcomma, hedge⟩
  · rwa [hedge]
  · rw [hedge]
    exact hts comma hcomma

theorem parseArguments_shift {group : GroupReader} (hg : Shifts k group) (closed : Bool)
    {parts : List Region} (hp : ∀ r ∈ parts, r.Behind) :
    parseArguments group closed (parts.map (Region.shift k)) =
      (parseArguments group closed parts).shift k := by
  induction parts with
  | nil => rfl
  | cons r parts ih =>
    have hr := hp r (List.mem_cons_self ..)
    have hparts := ih fun r hr => hp r (List.mem_cons_of_mem _ hr)
    have hempty : (r.shift k).tokens.isEmpty = r.tokens.isEmpty := by simp [Region.shift]
    -- The place is the one before the edge, and there is one.
    have hplace : (r.shift k).edge.offset - 1 = r.edge.offset - 1 + k := by
      have hedge := hr.edge
      simp only [Region.shift, Edge.shift_offset]
      omega
    simp only [List.map_cons, parseArguments, hempty, List.isEmpty_map, hplace, hparts, hg r hr]
    split
    next =>
      split
      next => rfl
      next => simp only [bind_shift, mistake_place_shift]
    next => simp only [bind_shift, pure_shift]

theorem parseArgumentList_shift {group : GroupReader} (hg : Shifts k group) (closed : Bool)
    {r : Region} (hr : r.Behind) :
    parseArgumentList group closed (r.shift k) = (parseArgumentList group closed r).shift k := by
  have hempty : (r.shift k).tokens.isEmpty = r.tokens.isEmpty := by simp [Region.shift]
  have hparts : (r.shift k).parts = r.parts.map (Region.shift k) := by
    simp only [Region.parts, Region.shift, cutAtCommas_shift, List.map_cons]
  have hbehind := @cutAtCommas_behind r.edge 0 r.tokens hr.edge hr.tokens
  simp only [parseArgumentList, hempty, hparts]
  split
  next => rfl
  next => exact parseArguments_shift k hg closed hbehind

theorem parseOpenCall_shift (lenient : Bool) {group : GroupReader} (hg : Shifts k group)
    {edge : Edge} (he : 1 ≤ edge.offset) (name : String) {ts : List Token} (hts : Behind ts) :
    parseOpenCall lenient group (edge.shift k) name (ts.map (Token.shift k)) =
      (parseOpenCall lenient group edge name ts).shift k := by
  have hinside : Behind (takeEnclosed 0 ts) := hts.subset (takeEnclosed_subset 0 ts)
  simp only [parseOpenCall, takeEnclosed_shift, dropEnclosed_shift]
  cases hd : dropEnclosed 0 ts with
  | nil =>
    have hlist := parseArgumentList_shift k hg false
      (r := ⟨takeEnclosed 0 ts, edge⟩) ⟨hinside, he⟩
    rw [Region.shift] at hlist
    simp only [List.map_nil, Parsed.shift, bind_shift, hlist, Edge.shift_isInputEnd,
      Edge.missing_shift]
    congr 1
    refine bind_congr fun as => ?_
    split
    next => rw [bind_shift, pure_shift]
    next => rfl
  | cons close rest =>
    have hclose := hts close (dropEnclosed_subset hd (List.mem_cons_self ..))
    have hlist := parseArgumentList_shift k hg true
      (r := ⟨takeEnclosed 0 ts, .before close.start⟩) ⟨hinside, hclose⟩
    simp only [Region.shift, Edge.shift] at hlist
    simp only [List.map_cons, Token.shift_start, Parsed.shift, bind_shift, hlist, pure_shift]

theorem parseCall_shift (lenient : Bool) {group : GroupReader} (hg : Shifts k group)
    {edge : Edge} (he : 1 ≤ edge.offset) (name : String) {ts : List Token} (hts : Behind ts) :
    parseCall lenient group (edge.shift k) name (ts.map (Token.shift k)) =
      (parseCall lenient group edge name ts).shift k := by
  cases ts with
  | nil =>
    simp only [List.map_nil, parseCall, Edge.missing_shift, Parsed.shift]
    congr 1
    split
    next => rw [bind_shift, pure_shift]
    next => rfl
  | cons t ts =>
    have hrest : Behind ts := hts.subset (List.subset_cons_self t ts)
    have hopen := parseOpenCall_shift k lenient hg he name hrest
    have hread := parseOpenCall_shift k lenient hg he name hts
    rw [List.map_cons] at hread
    by_cases ho : t.isPunct .openParen = true
    · simp only [List.map_cons, parseCall, Token.shift_isPunct, ho, if_true, hopen]
    · simp only [List.map_cons, parseCall, Token.shift_isPunct, ho, if_false, hread,
        Bool.false_eq_true, Parsed.shift, bind_shift, Token.shift_start, mistake_place_shift]

theorem parseAngleGroup_shift {group : GroupReader} (hg : Shifts k group) {edge : Edge}
    (he : 1 ≤ edge.offset) {ts : List Token} (hts : Behind ts) :
    parseAngleGroup group (edge.shift k) (ts.map (Token.shift k)) =
      (parseAngleGroup group edge ts).shift k := by
  have ht := takeUntil_shift k (p := (·.isPunct .closeAngle)) (fun _ => rfl) ts
  have hd := dropUntil_shift k (p := (·.isPunct .closeAngle)) (fun _ => rfl) ts
  have hinside : Behind (takeUntil (·.isPunct .closeAngle) ts) := hts.subset (takeUntil_subset _ ts)
  simp only [parseAngleGroup, ht, hd]
  cases hdrop : dropUntil (·.isPunct .closeAngle) ts with
  | nil =>
    simp only [List.map_nil, Parsed.shift, bind_shift, pure_shift, Edge.place, Edge.shift_offset,
      mistake_place_shift, hg.region hinside he]
  | cons close rest =>
    have hclose := hts close (dropUntil_subset hdrop (List.mem_cons_self ..))
    simp only [List.map_cons, Token.shift_start, Parsed.shift, bind_shift, pure_shift,
      hg.inner hinside hclose]

theorem parseExpression_shift (lenient : Bool) {group : GroupReader} (hg : Shifts k group)
    {edge : Edge} (he : 1 ≤ edge.offset) (t : Token) {ts : List Token} (hts : Behind ts) :
    parseExpression lenient group (edge.shift k) (t.shift k) (ts.map (Token.shift k)) =
      (parseExpression lenient group edge t ts).shift k := by
  unfold parseExpression
  rw [Token.shift_value]
  split
  next => rfl
  next name _ => exact parseCall_shift k lenient hg he name hts
  next => exact parseAngleGroup_shift k hg he hts
  next => exact parseImperative_shift k edge t.start ts
  next => exact parseOptional_shift k hg he t.start hts
  next => simp only [Parsed.shift, bind_shift, pure_shift, notUnderstood_shift]

/-- Only the first token may stand at the start of the text. -/
theorem parseExpressions_shift (lenient : Bool) {group : GroupReader} (hg : Shifts k group)
    {edge : Edge} {ts : List Token} (he : ts ≠ [] → 1 ≤ edge.offset) (hts : Behind ts.tail) :
    parseExpressions lenient group (edge.shift k) (ts.map (Token.shift k)) =
      (parseExpressions lenient group edge ts).shift k := by
  match ts with
  | [] =>
    rw [List.map_nil, parseExpressions_nil, parseExpressions_nil]
    rfl
  | t :: ts =>
    have he := he (List.cons_ne_nil t ts)
    have hsuffix := parseExpression_rest_suffix lenient group edge t ts
    have hlen := hsuffix.length_le
    have hts : Behind ts := hts
    have hrest : Behind (parseExpression lenient group edge t ts).rest.tail :=
      hts.subset fun u hu => hsuffix.subset (List.mem_of_mem_tail hu)
    rw [List.map_cons, parseExpressions_cons, parseExpressions_cons,
      parseExpression_shift k lenient hg he t hts, andThen_shift]
    simp only [Parsed.shift, andThen_shift]
    rw [parseExpressions_shift lenient hg (fun _ => he) hrest]
    rfl
termination_by ts.length

theorem parseGroup_shifts (lenient : Bool) (budget : Nat) :
    Shifts k (parseGroup lenient budget) := by
  induction budget with
  | zero => exact fun _ _ => rfl
  | succ budget ih =>
    intro r hr
    exact parseExpressions_shift k lenient ih (fun _ => hr.edge)
      (hr.tokens.subset fun _ ht => List.mem_of_mem_tail ht)

end

end CommandTemplate
