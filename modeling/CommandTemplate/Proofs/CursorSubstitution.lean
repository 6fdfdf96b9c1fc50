import CommandTemplate.Proofs.CursorAgreement

namespace CommandTemplate

namespace Tape

open Logged

variable {T : Tape}

theorem notUnderstood_agrees {i : Nat} {t : Token} (ht : T.tokens[i]? = some t) (c : Cursor) :
    T.Agrees (Walk.notUnderstood t) c c.pos (notUnderstood t) := by
  refine .measure (fun ho => ho i i t t (Nat.le_refl i) ht ht) fun c' hc' _ => ?_
  rw [← hc']
  exact .report _

/-- A problem that is reported at a token. -/
theorem mistake_span_agrees {α : Type} {i : Nat} {t : Token} (ht : T.tokens[i]? = some t)
    (c : Cursor) (code : Code) (a : α) :
    T.Agrees (do
      let span ← Walk.measure t.start t.stop
      Walk.mistake code span
      pure a) c c.pos (do
      mistake code t.span
      pure a) := by
  refine .measure (fun ho => ho i i t t (Nat.le_refl i) ht ht) fun c' hc' _ => ?_
  exact .bind (.mistake code t.span) fun _ c'' hc'' _ => .pure a (by rw [hc'', hc'])

theorem readBound_agrees {i : Nat} {t : Token} (ht : T.tokens[i]? = some t) (c : Cursor)
    (hyphenFollows : Bool) :
    T.Agrees (Walk.readBound hyphenFollows t) c c.pos (parseBound hyphenFollows t) := by
  unfold Walk.readBound parseBound
  cases hv : t.value with
  | integer n =>
    cases n with
    | zero => exact mistake_span_agrees ht c _ _
    | succ n => exact .pure _ rfl
  | identifier name =>
    dsimp only
    split
    next => exact mistake_span_agrees ht c _ _
    next =>
      split
      next => exact mistake_span_agrees ht c _ _
      next => exact .pure _ rfl
  | text s => exact mistake_span_agrees ht c _ _
  | punct p => exact mistake_span_agrees ht c _ _

/-- Where a search ends. -/
def reached (limit : Nat) : Option (Nat × Token) → Nat
  | some (j, _) => j
  | none => limit

/-- What is said where a search ends: nothing if it found its token. -/
def settle (T : Tape) (p : Problem) (limit : Nat) : Option (Nat × Token) → Logged Unit
  | some _ => pure ()
  | none => (T.edge limit).missing p

theorem exists_rounds {n rounds : Nat} (h : n < rounds) : ∃ more, rounds = more + 1 :=
  ⟨rounds - 1, by omega⟩

theorem skipTail_agrees {marker : Marker} {limit i rounds : Nat} {inner : List Token}
    {r : Option (Nat × Token)} (h : T.Ahead marker.endsBody limit i inner r)
    (hr : inner.length < rounds) {c : Cursor} (hc : c.pos = i) :
    T.Agrees (T.skipTail marker limit rounds) c (reached limit r) (do
      noneUnderstood inner
      T.settle (.unclosed marker) limit r) := by
  induction h generalizing c rounds with
  | done =>
    obtain ⟨rounds, rfl⟩ := exists_rounds hr
    rw [skipTail]
    refine .look (tokenBefore_eq_none (by omega)) ?_
    exact missing_agrees _ limit c
  | found hi ht hp =>
    obtain ⟨rounds, rfl⟩ := exists_rounds hr
    subst hc
    rw [skipTail]
    refine .look (tokenBefore_eq_some hi ht) ?_
    simp only [hp, if_true]
    exact .pure () rfl
  | pass hi ht hp _ ih =>
    obtain ⟨rounds, rfl⟩ := exists_rounds hr
    subst hc
    rw [List.length_cons] at hr
    rw [skipTail, noneUnderstood, bind_def, bind_def, andThen_assoc]
    refine .look (tokenBefore_eq_some hi ht) ?_
    simp only [hp, Bool.false_eq_true, if_false]
    refine .bind (notUnderstood_agrees ht c) fun _ c' hc' _ => ?_
    exact .advance fun c'' hc'' _ => ih (by omega) (by omega)

/-- The tokens of a body taken one by one: `slot` says which comes next, and `valid` whether those
before were in order. -/
def parseSlots : Nat → Substitution → Bool → List Token → Logged (Option Substitution)
  | _, s, valid, [] => pure (if valid then some s else none)
  | 1, s, valid, t :: ts => do
    let bound ← parseBound (ts.head?.any (·.isPunct .hyphen)) t
    parseSlots 2 { s with first := bound.getD none } (valid && bound.isSome) ts
  | 2, s, valid, t :: ts => do
    let hyphen ← parseHyphen t
    parseSlots 3 { s with singular := !hyphen } (valid && hyphen) ts
  | 3, s, valid, t :: ts => do
    let bound ← parseBound false t
    parseSlots 4 { s with last := bound.getD none } (valid && bound.isSome) ts
  | _, _, _, t :: ts => do
    noneUnderstood (t :: ts)
    pure none

theorem parseBody_eq_parseSlots {inner : List Token} (h : inner ≠ []) :
    parseBody inner = parseSlots 1 (.single none) true inner := by
  match inner with
  | [] => exact absurd rfl h
  | [a] =>
    refine bind_congr fun bound => ?_
    cases bound <;> rfl
  | [a, b] =>
    refine bind_congr fun first => bind_congr fun hyphen => ?_
    cases first <;> cases hyphen <;> rfl
  | a :: b :: d :: extra =>
    refine bind_congr fun first => bind_congr fun hyphen => bind_congr fun last => ?_
    cases extra with
    | nil => cases first <;> cases hyphen <;> cases last <;> rfl
    | cons t ts => rfl

/-- What is known of a body before the token of a slot: bounds and hyphen are as they were until
their slots come, and what made the body invalid keeps it from being a range. -/
structure SlotsOpen (slot : Nat) (s : Substitution) (valid : Bool) : Prop where
  single : slot ≤ 2 → s.singular = true
  open_last : slot ≤ 3 → s.last = none
  dropped : valid = false →
    (slot = 2 ∧ s.first = none) ∨ 2 < slot ∧ (s.first = none ∨ s.singular = true) ∨
      3 < slot ∧ s.last = none

theorem SlotsOpen.not_reversed {slot : Nat} {s : Substitution} {valid : Bool}
    (h : SlotsOpen slot s valid) (hv : valid = false) : s.reversed = false := by
  obtain ⟨first, last, singular⟩ := s
  rcases h.dropped hv with ⟨_, hf⟩ | ⟨_, hf | hs⟩ | ⟨_, hl⟩
  · simp_all [Substitution.reversed]
  · simp_all [Substitution.reversed]
  · simp_all [Substitution.reversed]
  · simp_all [Substitution.reversed]

/-- The range of a body that a token ends may not be reversed. -/
def checkOrder (start : Nat) (terminator : Token) :
    Option Substitution → Logged (Option Substitution)
  | none => pure none
  | some s =>
    if s.reversed then do
      mistake .reversedRange ⟨start, terminator.stop - start⟩
      pure none
    else pure (some s)

/-- What becomes of a body that was read: its order is checked, unless nothing ends it. -/
def settleBody (T : Tape) (marker : Marker) (limit start : Nat) :
    Option (Nat × Token) → Option Substitution → Logged (Option Substitution)
  | some (_, t), o => checkOrder start t o
  | none, _ => do
    (T.edge limit).missing (.unclosed marker)
    pure none

theorem settleBody_none {marker : Marker} {limit start : Nat} {r : Option (Nat × Token)}
    (x : Logged Unit) :
    (x >>= fun _ => pure none) >>= T.settleBody marker limit start r =
      (x >>= fun _ => T.settle (.unclosed marker) limit r) >>= fun _ => pure none := by
  simp only [bind_def, pure_def, andThen_assoc, value_andThen]
  cases r with
  | none => rfl
  | some r => simp only [settleBody, settle, checkOrder, pure_def, value_andThen]

theorem finishBody_agrees {start : Nat} {s : Substitution} {valid : Bool} {t : Token} {c : Cursor}
    (ht : T.tokens[c.pos]? = some t) (hstart : T.Ordered → start ≤ t.stop)
    (hv : valid = false → s.reversed = false) :
    T.Agrees (T.finishBody start s valid) c c.pos
      (checkOrder start t (if valid then some s else none)) := by
  unfold finishBody
  cases hr : s.reversed with
  | true =>
    obtain rfl : valid = true := by
      cases valid with
      | true => rfl
      | false => simp [hv rfl] at hr
    simp only [checkOrder, hr, if_true]
    refine .look rfl (.look (tokenAt_eq ht c) (.measure hstart fun c' hc' _ => ?_))
    exact .bind (.mistake _ _) fun _ c'' hc'' _ => .pure none (by omega)
  | false =>
    cases valid with
    | true =>
      simp only [checkOrder, hr, Bool.false_eq_true, if_false, if_true]
      exact .pure _ rfl
    | false => exact .pure none rfl

theorem punctAt_hyphen_eq {marker : Marker} {limit i : Nat} {inner : List Token}
    {r : Option (Nat × Token)} (h : T.Ahead marker.endsBody limit i inner r) :
    T.punctAt .hyphen i limit = inner.head?.any (·.isPunct .hyphen) := by
  cases h with
  | done => simp [punctAt]
  | @found _ t hi ht hp =>
    have hno : t.isPunct .hyphen = false := by
      cases hh : t.isPunct .hyphen with
      | false => rfl
      | true =>
        have hv := Token.isPunct_iff.mp hh
        cases marker <;> simp [Marker.endsBody, Marker.punct, Token.isPunct, hv] at hp
    simp [punctAt, ht, hno]
  | pass hi ht hp _ => simp [punctAt, hi, ht]

theorem readSlots_agrees {marker : Marker} {limit i start slot rounds : Nat} {inner : List Token}
    {r : Option (Nat × Token)} {s : Substitution} {valid : Bool}
    (h : T.Ahead marker.endsBody limit i inner r) (hr : inner.length + 1 < rounds)
    (hslot : slot = 1 → inner ≠ [] ∧ valid = true) (hopen : SlotsOpen slot s valid)
    (hpos : 1 ≤ slot)
    (hstart : T.Ordered → ∀ j u, i ≤ j → T.tokens[j]? = some u → start ≤ u.stop) {c : Cursor}
    (hc : c.pos = i) :
    T.Agrees (T.readSlots marker limit start rounds slot s valid) c (reached limit r)
      (parseSlots slot s valid inner >>= T.settleBody marker limit start r) := by
  induction h generalizing c slot s valid rounds with
  | done =>
    obtain ⟨rounds, rfl⟩ := exists_rounds hr
    rw [readSlots]
    refine .look (tokenBefore_eq_none (by omega)) ?_
    rw [parseSlots]
    exact .bind (missing_agrees _ limit c) fun _ c' hc' _ => .pure none hc'
  | @found i t hi ht hp =>
    obtain ⟨rounds, rfl⟩ := exists_rounds hr
    subst hc
    have hne : slot ≠ 1 := fun h1 => (hslot h1).1 rfl
    rw [readSlots, parseSlots]
    refine .look (tokenBefore_eq_some hi ht) ?_
    simp only [hp, if_true, if_neg hne]
    exact finishBody_agrees ht (fun ho => hstart ho _ t (Nat.le_refl _) ht) hopen.not_reversed
  | @pass i t inner r hi ht hp hrest ih =>
    obtain ⟨rounds, rfl⟩ := exists_rounds hr
    rw [List.length_cons] at hr
    subst hc
    have hlater : T.Ordered → ∀ j u, c.pos + 1 ≤ j → T.tokens[j]? = some u → start ≤ u.stop :=
      fun ho j u hj hu => hstart ho j u (by omega) hu
    rw [readSlots]
    refine .look (tokenBefore_eq_some hi ht) ?_
    simp only [hp, Bool.false_eq_true, if_false]
    -- What is left to show in each slot is that the next one is open.
    rcases slot with _ | _ | _ | _ | slot
    · omega
    · obtain ⟨_, rfl⟩ := hslot rfl
      rw [parseSlots, bind_def, bind_def, andThen_assoc, ← punctAt_hyphen_eq hrest]
      refine .look rfl (.bind (readBound_agrees ht c _) fun bound c' hc' _ => ?_)
      refine .advance fun c'' hc'' _ => ih (by omega) (by omega) ⟨?_, ?_, ?_⟩ (by omega) hlater
        (by omega)
      · exact fun _ => hopen.single (by omega)
      · exact fun _ => hopen.open_last (by omega)
      · cases bound with
        | none => exact fun _ => .inl ⟨rfl, rfl⟩
        | some bound => simp
    · rw [parseSlots, parseHyphen]
      cases hh : t.isPunct .hyphen with
      | true =>
        simp only [if_true]
        refine .advance fun c' hc' _ => ?_
        have hnext : SlotsOpen 3 { s with singular := false } valid := by
          refine ⟨by omega, fun _ => hopen.open_last (by omega), fun hv => ?_⟩
          rcases hopen.dropped hv with ⟨_, hf⟩ | ⟨h2, _⟩ | ⟨h3, _⟩
          · exact .inr (.inl ⟨by omega, .inl hf⟩)
          · omega
          · omega
        have hgo := ih (show inner.length + 1 < rounds by omega) (by omega) hnext (by omega) hlater
          (show c'.pos = c.pos + 1 by omega)
        rw [bind_def, pure_def, bind_def, value_andThen, Bool.and_true]
        exact hgo
      | false =>
        simp only [Bool.false_eq_true, if_false]
        have hkeep : { s with singular := !false } = s := by
          rw [Bool.not_false, ← hopen.single (by omega)]
        simp only [bind_def, pure_def, andThen_assoc, value_andThen, hkeep, Bool.and_false]
        refine .bind (.mistake _ _) fun _ c' hc' _ => .advance fun c'' hc'' _ => ?_
        refine ih (by omega) (by omega) ⟨by omega, ?_, ?_⟩ (by omega) hlater (by omega)
        · exact fun _ => hopen.open_last (by omega)
        · exact fun _ => .inr (.inl ⟨by omega, .inr (hopen.single (by omega))⟩)
    · rw [parseSlots, bind_def, bind_def, andThen_assoc]
      refine .bind (readBound_agrees ht c _) fun bound c' hc' _ => ?_
      refine .advance fun c'' hc'' _ => ih (by omega) (by omega) ⟨by omega, by omega, ?_⟩ (by omega)
        hlater (by omega)
      intro hv
      cases bound with
      | none => exact .inr (.inr ⟨by omega, rfl⟩)
      | some bound =>
        have hbefore : valid = false := by simpa using hv
        rcases hopen.dropped hbefore with ⟨h2, _⟩ | ⟨_, hd⟩ | ⟨h3, _⟩
        · omega
        · exact .inr (.inl ⟨by omega, hd⟩)
        · omega
    · have htail := skipTail_agrees (.pass hi ht hp hrest)
        (show (t :: inner).length < rounds by rw [List.length_cons]; omega) (c := c) rfl
      rw [parseSlots, settleBody_none]
      · exact .bind htail fun _ c' hc' _ => .pure none hc'
      all_goals omega

/-- What a substitution comes to whose body is `inner`, up to the token that ends it. -/
def parseToTerminator (T : Tape) (marker : Marker) (limit start : Nat) (inner : List Token) :
    Option (Nat × Token) → Logged (Option Substitution)
  | some (_, t) => parseClosedBody start inner t
  | none => do
    let _ ← parseBody inner
    (T.edge limit).missing (.unclosed marker)
    pure none

theorem parseToTerminator_eq {marker : Marker} {limit start : Nat} {inner : List Token}
    {r : Option (Nat × Token)} (h : inner ≠ []) :
    T.parseToTerminator marker limit start inner r =
      parseSlots 1 (.single none) true inner >>= T.settleBody marker limit start r := by
  rw [← parseBody_eq_parseSlots h]
  cases r with
  | none => rfl
  | some r =>
    have hne : inner.isEmpty = false := by simpa using h
    simp only [parseToTerminator, parseClosedBody, hne, Bool.false_eq_true, if_false, pure_def,
      bind_def]
    refine congrArg _ (funext fun s => ?_)
    cases s <;> rfl

theorem readSubstitution_agrees {marker : Marker} {limit rounds : Nat} {inner : List Token}
    {t : Token} {r : Option (Nat × Token)} {c : Cursor} (ht : T.tokens[c.pos]? = some t)
    (h : T.Ahead marker.endsBody limit (c.pos + 1) inner r) (hr : inner.length + 1 < rounds) :
    T.Agrees (T.readSubstitution rounds marker limit) c (reached limit r)
      (T.parseToTerminator marker limit t.start inner r) := by
  have hstart : T.Ordered → ∀ j u, c.pos + 1 ≤ j → T.tokens[j]? = some u → t.start ≤ u.stop :=
    fun ho j u hj hu => ho c.pos j t u (by omega) ht hu
  refine .look rfl (.look (tokenAt_eq ht c) (.advance fun c' hc' _ => ?_))
  by_cases hne : inner = []
  · subst hne
    obtain ⟨rounds, rfl⟩ := exists_rounds hr
    rw [readSlots]
    cases h with
    | done =>
      refine .look (tokenBefore_eq_none (by omega)) ?_
      exact .bind (missing_agrees _ _ c') fun _ c'' hc'' _ => .pure none hc''
    | @found _ u hi hu hp =>
      rw [← hc'] at hi hu
      refine .look (tokenBefore_eq_some hi hu) ?_
      simp only [hp, if_true]
      refine .bind (.mistake _ _) fun _ c'' hc'' _ => .pure none ?_
      simp only [reached]
      omega
  · rw [parseToTerminator_eq hne]
    refine readSlots_agrees h hr (fun _ => ⟨hne, rfl⟩) ⟨?_, ?_, ?_⟩ (Nat.le_refl 1) hstart hc'
    · exact fun _ => rfl
    · exact fun _ => rfl
    · exact fun hv => absurd hv (by simp)

/-- A construct is read by position: what it yields is the same, and so is what follows it. -/
def Reads (T : Tape) (w : Walk (Option Expr)) (c : Cursor) (limit : Nat) (p : Parsed) : Prop :=
  T.Agrees w c (limit - p.rest.length) p.outcome

theorem Reads.of_stop {w : Walk (Option Expr)} {c : Cursor} {limit stop : Nat} {p : Parsed}
    (hl : limit ≤ T.tokens.length) (hs : stop ≤ limit) (hrest : p.rest = T.slice stop limit)
    (h : T.Agrees w c stop p.outcome) : T.Reads w c limit p := by
  have hlen : limit - p.rest.length = stop := by
    rw [hrest, slice_length hl]
    omega
  rw [Reads, hlen]
  exact h

/-- A reader that found nothing to end a substitution stands where no token is left. -/
theorem punctAt_self (p : Punct) (limit : Nat) : T.punctAt p limit limit = false := by
  simp [punctAt]

theorem punctAt_of_token {p : Punct} {i limit : Nat} {t : Token} (hi : i < limit)
    (ht : T.tokens[i]? = some t) (hp : t.isPunct p = true) : T.punctAt p i limit = true := by
  simp [punctAt, hi, ht, hp]

theorem parseUnclosedBody_eq {marker : Marker} {limit : Nat} {inner : List Token} (start : Nat) :
    parseUnclosedBody marker (T.edge limit) inner =
      T.parseToTerminator marker limit start inner none >>= fun _ => pure none := by
  simp only [parseUnclosedBody, parseToTerminator, bind_def, pure_def, andThen_assoc,
    value_andThen]

theorem readImperative_reads {limit rounds : Nat} {c : Cursor} {t : Token}
    (ht : T.tokens[c.pos]? = some t) (hc : c.pos < limit) (hl : limit ≤ T.tokens.length)
    (hr : limit - c.pos < rounds) :
    T.Reads (T.readImperative rounds limit) c limit
      (parseImperative (T.edge limit) t.start (T.slice (c.pos + 1) limit)) := by
  obtain ⟨inner, r, ha⟩ :=
    exists_ahead Marker.imperative.endsBody (show c.pos + 1 ≤ limit by omega) hl
  have hlen := ha.length_le
  have hbody := readSubstitution_agrees ht ha (show inner.length + 1 < rounds by omega)
  rw [parseImperative, ha.takeUntil_eq]
  rcases r with _ | ⟨j, u⟩
  · rw [ha.dropUntil_eq_nil]
    refine .of_stop hl (Nat.le_refl limit) (by rw [slice_nil (Nat.le_refl limit)]) ?_
    rw [parseUnclosedBody_eq t.start]
    refine .bind hbody fun s c' hc' _ => .look rfl ?_
    have hc' : c'.pos = limit := hc'
    rw [hc', punctAt_self]
    exact .pure none hc'
  · obtain ⟨hij, hj, hu, hp, hd⟩ := ha.dropUntil_eq_cons
    have hmark : u.isPunct .exclamation = true := by
      simpa [Marker.endsBody, Marker.punct] using hp
    rw [hd]
    refine .of_stop hl (show j + 1 ≤ limit by omega) rfl ?_
    refine .bind hbody fun s c' hc' _ => .look rfl ?_
    have hc' : c'.pos = j := hc'
    rw [hc', punctAt_of_token hj hu hmark]
    exact .advance fun c'' hc'' _ => .pure _ (by omega)

/-- The position behind the token that a search ends with. -/
def behind (limit : Nat) : Option (Nat × Token) → Nat
  | some (j, _) => j + 1
  | none => limit

theorem skipToQuestion_agrees {limit i rounds : Nat} {skipped : List Token}
    {r : Option (Nat × Token)} (h : T.Ahead (·.isPunct .question) limit i skipped r)
    (hr : skipped.length < rounds) {c : Cursor} (hc : c.pos = i) :
    T.Agrees (T.skipToQuestion limit rounds) c (behind limit r) (do
      noneUnderstood skipped
      T.settle (.general .questionMarkExpected) limit r) := by
  induction h generalizing c rounds with
  | done =>
    obtain ⟨rounds, rfl⟩ := exists_rounds hr
    rw [skipToQuestion]
    refine .look (tokenBefore_eq_none (by omega)) ?_
    exact missing_agrees _ limit c
  | found hi ht hp =>
    obtain ⟨rounds, rfl⟩ := exists_rounds hr
    subst hc
    rw [skipToQuestion]
    refine .look (tokenBefore_eq_some hi ht) (.advance fun c' hc' _ => ?_)
    rw [if_pos hp]
    exact .pure () hc'
  | @pass _ t _ _ hi ht hp _ ih =>
    obtain ⟨rounds, rfl⟩ := exists_rounds hr
    rw [List.length_cons] at hr
    subst hc
    have hno : ¬ t.isPunct .question = true := by simpa using hp
    rw [skipToQuestion, noneUnderstood, bind_def, bind_def, andThen_assoc]
    refine .look (tokenBefore_eq_some hi ht) (.advance fun c' hc' _ => ?_)
    rw [if_neg hno]
    exact .bind (notUnderstood_agrees ht c') fun _ c'' hc'' _ =>
      ih (by omega) (by omega)

/-- The end of a default does not depend on how the default was read. -/
theorem parseDefaultEnd_eq (edge : Edge) (value : Logged Expr) (ts : List Token) (e : Expr) :
    parseDefaultEnd edge value ts =
      ⟨value >>= fun e => (parseDefaultEnd edge (pure e) ts).outcome,
        (parseDefaultEnd edge (pure e) ts).rest⟩ := by
  cases ts with
  | nil => rfl
  | cons t ts =>
    simp only [parseDefaultEnd]
    split <;> rfl

theorem readDefaultEnd_reads {limit : Nat} {c : Cursor} (e : Expr) (hc : c.pos ≤ limit)
    (hl : limit ≤ T.tokens.length) :
    T.Reads (T.readDefaultEnd e limit) c limit
      (parseDefaultEnd (T.edge limit) (pure e) (T.slice c.pos limit)) := by
  rcases Nat.eq_or_lt_of_le hc with he | hlt
  · rw [slice_nil (by omega), parseDefaultEnd]
    refine .of_stop hl (Nat.le_refl limit) (by rw [slice_nil (Nat.le_refl limit)]) ?_
    refine .look (tokenBefore_eq_none (by omega)) ?_
    rw [← edge_place]
    exact .bind (.mistake _ _) fun _ c' hc' _ => .pure none (by omega)
  · obtain ⟨t, ht, hs⟩ := slice_cons hlt hl
    rw [hs, parseDefaultEnd]
    cases hq : t.isPunct .question with
    | true =>
      refine .of_stop hl (show c.pos + 1 ≤ limit by omega) rfl ?_
      refine .look (tokenBefore_eq_some hlt ht) ?_
      simp only [hq, if_true]
      exact .advance fun c' hc' _ => .pure _ hc'
    | false =>
      have hbehind : dropUntil (·.isPunct .question) (T.slice c.pos limit) =
          dropUntil (·.isPunct .question) (T.slice (c.pos + 1) limit) := by
        rw [hs]
        simp [dropUntil, hq]
      obtain ⟨r, hr, hf⟩ := findPunct_finds .question hc hl
      rw [hbehind] at hf
      have hread : ∀ stop, (∀ c, T.Agrees (do
            Walk.moveBehind limit r
            pure none) c stop (pure none : Logged (Option Expr))) →
          T.Agrees (T.readDefaultEnd e limit) c stop (do
            mistake .questionMarkExpected t.span
            pure none) := by
        intro stop hmove
        refine .look (tokenBefore_eq_some hlt ht) ?_
        simp only [hq, Bool.false_eq_true, if_false]
        refine .measure (fun ho => ho c.pos c.pos t t (Nat.le_refl _) ht ht) fun c' hc' _ => ?_
        refine .bind (.mistake _ _) fun _ c'' hc'' _ => .look rfl (.look ?_ (hmove c''))
        rw [hc'', hc']
        exact hr c''
      cases hf with
      | nothing _ hd =>
        refine .of_stop hl (Nat.le_refl limit) ?_ (hread limit ?_)
        · simp [hd, slice_nil]
        · exact fun c => .moveTo fun c' hc' _ => .pure none hc'
      | @found j u hij hj hu _ hd =>
        refine .of_stop hl (show j + 1 ≤ limit by omega) ?_ (hread (j + 1) ?_)
        · simp [hd]
        · exact fun c => .moveTo fun c' hc' _ => .pure none hc'

end Tape

end CommandTemplate
