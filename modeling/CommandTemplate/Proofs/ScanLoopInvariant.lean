import CommandTemplate.Proofs.ScanLoopSteps

namespace CommandTemplate

theorem Stacked.held_of_frame {dialect : Dialect} {modes : List Mode} {context : Context}
    (h : Stacked modes) (hf : Scanner.Frame dialect modes context) : Held modes := by
  refine h.held_of_bracket fun mode hmode => ?_
  cases hf <;> simp_all

theorem escapable_frame {dialect : Dialect} {modes : List Mode} {context : Context}
    (hf : Scanner.Frame dialect modes context) : escapable dialect modes = context.special := by
  cases hf <;> rfl

theorem escapable_frame_ne_nil {dialect : Dialect} {modes : List Mode} {context : Context}
    (hf : Scanner.Frame dialect modes context) : escapable dialect modes ≠ [] := by
  rw [escapable_frame hf]
  cases context <;> simp [Context.special, textSpecial, expressionSpecial]

namespace Scanner

/-- A number or word that is read between markers, as long as characters go on with it. -/
structure Gathers (pend : Nat → List Char → Pending) (goesOn : Char → Bool)
    (value : List Char → TokenValue) : Prop where
  more {s : Scanner} {marker : Marker} {below : List Mode} {start : Nat} {cs : List Char}
    {c : Char} : s.modes = .body marker :: below → s.pending = pend start cs → goesOn c = true →
    s.step c = ([], { s with offset := s.offset + 1, pending := pend start (c :: cs) })
  stop {s : Scanner} {marker : Marker} {below : List Mode} {start : Nat} {cs : List Char}
    {c : Char} : s.modes = .body marker :: below → s.pending = pend start cs → goesOn c = false →
    s.step c = s.stepBodyFresh marker below c
  flush {s : Scanner} {start : Nat} {cs : List Char} : s.pending = pend start cs →
    s.flush = [⟨value cs.reverse, start, start + cs.length⟩]

theorem gathers_number : Gathers .number Char.isDigit numberValue where
  more hm hp hc := by simp only [step, hm, stepBody, hp, hc, if_true]
  stop hm hp hc := by simp only [step, hm, stepBody, hp, hc, Bool.false_eq_true, if_false]
  flush hp := by simp [Scanner.flush, hp]

theorem gathers_word :
    Gathers .word isIdentContinue (fun cs => .identifier (String.ofList cs)) where
  more hm hp hc := by simp only [step, hm, stepBody, hp, hc, if_true]
  stop hm hp hc := by simp only [step, hm, stepBody, hp, hc, Bool.false_eq_true, if_false]
  flush hp := by simp [Scanner.flush, hp]

/-- What a step does that finishes the unfinished token first. -/
def afterFlush (s : Scanner) (r : List Token × Scanner) : List Token × Scanner :=
  (s.flush ++ r.1, r.2)

theorem stepBodyFresh_flush (s : Scanner) (marker : Marker) (below : List Mode) (c : Char) :
    s.stepBodyFresh marker below c =
      s.afterFlush ({ s with pending := .nothing }.stepBodyFresh marker below c) := by
  have hnothing : ({ s with pending := .nothing } : Scanner).flush = [] := rfl
  simp only [stepBodyFresh, apply_ite s.afterFlush]
  repeat' refine ite_congr rfl (fun _ => ?_) fun _ => ?_
  all_goals simp [afterFlush, close, emit, next, punctToken, hnothing]

theorem Gathers.read {pend : Nat → List Char → Pending} {goesOn : Char → Bool}
    {value : List Char → TokenValue} (h : Gathers pend goesOn value) {s : Scanner}
    {marker : Marker} {below : List Mode} (hm : s.modes = .body marker :: below) {start : Nat}
    {xs : List Char} (hp : s.pending = pend start xs) (cs : List Char) :
    s.read cs =
      ⟨value (xs.reverse ++ cs.takeWhile goesOn), start,
          start + xs.length + (cs.takeWhile goesOn).length⟩ ::
        ({ s with
          offset := s.offset + (cs.takeWhile goesOn).length
          pending := .nothing } : Scanner).read (cs.dropWhile goesOn) := by
  induction cs generalizing s xs with
  | nil =>
    rw [read_nil, h.flush hp]
    simp [read_nil, Scanner.flush]
  | cons c cs ih =>
    cases hc : goesOn c with
    | true =>
      rw [read_cons, h.more hm hp hc]
      have hrest := @ih { s with offset := s.offset + 1, pending := pend start (c :: xs) } hm _ rfl
      simp only [List.nil_append, hrest, List.takeWhile_cons, List.dropWhile_cons, hc]
      simp [Nat.add_assoc, Nat.add_comm, Nat.add_left_comm]
    | false =>
      have hstep : ({ s with pending := .nothing } : Scanner).step c =
          ({ s with pending := .nothing } : Scanner).stepBodyFresh marker below c := by
        simp [step, hm, stepBody]
      rw [read_cons, h.stop hm hp hc, stepBodyFresh_flush, ← hstep, afterFlush, h.flush hp]
      simp [hc, read_cons]

end Scanner

namespace Spot

/-- The loop goes on to a spot that is one round further. -/
def Reaches (q : Spot) (l : ScanLoop) : Prop :=
  ∃ q', l = q'.loop ∧ q.Next q'

section

variable {q : Spot} {c : Char} {cs : List Char}

theorem Reaches.enterWith (hq : q.Sound) (hr : q.rest = c :: cs) {p : Punct} {mode : Mode}
    (hm : Settled (mode :: q.modes))
    (hstep : q.scanner.step c = q.scanner.emit p (mode :: q.modes)) :
    q.Reaches (q.loop.enterWith p mode) :=
  ⟨_, enterWith_loop hq hr p mode, next_emit hm hr hstep⟩

theorem Reaches.close (hq : q.Sound) (hr : q.rest = c :: cs) {p : Punct} {mode : Mode}
    (hm : Settled q.modes ∨ mode ∈ q.modes)
    (hstep : q.scanner.step c = q.scanner.close p mode) : q.Reaches (q.loop.close p mode) := by
  refine ⟨_, close_loop hq hr p mode, next_emit ?_ hr hstep⟩
  split
  next hin => exact hq.stacked.leave hin
  next hin => exact hm.resolve_right hin

theorem Reaches.leaves (hq : q.Sound) (hr : q.rest = c :: cs) {p : Punct} {mode : Mode}
    {below : List Mode} (hm : q.modes = mode :: below) (hb : Held below)
    (hstep : q.scanner.step c = q.scanner.emit p below) :
    q.Reaches ((q.loop.flush false).emit p).leave := by
  refine ⟨_, ?_, next_emit hb.settled hr hstep⟩
  rw [ScanLoop.leave_eq (by rw [layers_emit hq, hm]), emit_loop hq hr]

section

variable {context : Context}

theorem Sound.step_punct (hq : q.Sound) (hf : Scanner.Frame q.dialect q.modes context) (p : Punct)
    (hr : q.rest = p.char :: cs) (hp : p.char ∈ context.special) (ho : p ≠ .openParen) :
    q.scanner.step p.char = q.scanner.emit p (Scanner.afterPunct q.modes p) :=
  Scanner.step_punct (hf.reads hp) ho fun _ =>
    hq.not_afterEscape (by rw [hr]; rfl) (by rwa [escapable_frame hf])

theorem Reaches.escape (hq : q.Sound) (hf : Scanner.Frame q.dialect q.modes context)
    (hr : q.rest = escapeChar :: cs) : q.Reaches (q.loop.escape context.special) := by
  rw [← escapable_frame hf]
  exact escape_loop hq (escapable_frame_ne_nil hf) hr

theorem Reaches.angle (hq : q.Sound) (hf : Scanner.Frame q.dialect q.modes context)
    (hr : q.rest = '<' :: cs) : q.Reaches (q.loop.enterWith .openAngle .angle) :=
  .enterWith hq hr (hq.stacked.held_of_frame hf).angle.settled
    (hq.step_punct hf .openAngle hr (by cases context <;> decide) (by simp))

theorem Reaches.marker (hq : q.Sound) (hf : Scanner.Frame q.dialect q.modes context)
    (marker : Marker) (hr : q.rest = marker.punct.char :: cs) :
    q.Reaches (q.loop.enterWith marker.punct (.body marker)) := by
  have hp : marker.punct.char ∈ context.special := by cases context <;> cases marker <;> decide
  have hstep := hq.step_punct hf marker.punct hr hp (by cases marker <;> simp [Marker.punct])
  rw [hf.afterPunct_marker] at hstep
  exact .enterWith hq hr (.top (hq.stacked.held_of_frame hf) (by simp)) hstep

theorem Reaches.unspecial (hq : q.Sound) (hf : Scanner.Frame q.dialect q.modes context)
    (hr : q.rest = c :: cs) (he : c ≠ escapeChar) (hc : c ∉ context.special) :
    q.Reaches (q.loop.add (.plain c)) := by
  have hstep : q.scanner.step c = q.scanner.extend (.plain c) :=
    hf.readsText.step_plain hc fun hd => absurd hd hf.head_ne.1
  exact ⟨_, loop_push hr,
    next_plain hq (escapable_frame_ne_nil hf) hr (fun h => absurd h he) hstep⟩

end

theorem readText_reaches (hq : q.Sound) (hf : Scanner.Frame q.dialect q.modes .text)
    (hm : q.modes = []) (hr : q.rest = c :: cs) : q.Reaches (q.loop.readText c) := by
  unfold ScanLoop.readText
  split
  next hc =>
    subst hc
    exact .escape hq hf hr
  next hc =>
    split
    next => exact .angle hq hf hr
    next => exact .marker hq hf .imperative hr
    next => exact .marker hq hf .optional hr
    next =>
      have hstep := hq.step_punct hf .closeAngle hr (by decide) (by simp)
      have hmodes : Scanner.afterPunct q.modes .closeAngle = q.modes := by
        simp [Scanner.afterPunct, hm]
      rw [hmodes] at hstep
      exact ⟨_, emit_loop_same hq hr .closeAngle,
        next_emit (hq.stacked.held_of_frame hf).settled hr hstep⟩
    next h1 h2 h3 h4 =>
      refine .unspecial hq hf hr hc ?_
      simp only [Context.special, textSpecial, List.mem_cons, List.not_mem_nil, or_false, not_or]
      exact ⟨h2, h3, h1, h4⟩

theorem call_loop (hq : q.Sound) (hr : q.rest = c :: cs) :
    ((q.loop.flush true).emit .openParen).enter .paren =
      (q.finish (q.scanner.flushBeforeParen ++ [q.scanner.punctToken .openParen])
        (.paren :: q.modes) [c] cs).loop := by
  rw [loop_finish hr, flush_loop hq]
  simp [ScanLoop.emit, ScanLoop.enter, loop, Scanner.punctToken, scanner]

theorem readExpression_reaches (hq : q.Sound) (hf : Scanner.Frame q.dialect q.modes .expression)
    (hr : q.rest = c :: cs) : q.Reaches (q.loop.readExpression c) := by
  have hheld := hq.stacked.held_of_frame hf
  unfold ScanLoop.readExpression
  split
  next hc =>
    subst hc
    exact .escape hq hf hr
  next hc =>
    split
    next =>
      have ha := hq.not_afterEscape (c := '(') (by rw [hr]; rfl)
        (by rw [escapable_frame hf]; decide)
      refine ⟨_, call_loop hq hr, next_finish hheld.paren.settled (by simp) hr (by simp) ?_⟩
      rw [hr, Scanner.read_cons, Scanner.step_openParen hf ha]
      rfl
    next =>
      exact .close hq hr (.inl hheld.settled)
        (hq.step_punct hf .closeParen hr (by decide) (by simp))
    next => exact .angle hq hf hr
    next =>
      exact .close hq hr (.inl hheld.settled)
        (hq.step_punct hf .closeAngle hr (by decide) (by simp))
    next =>
      exact ⟨_, emit_loop_same hq hr .comma,
        next_emit hheld.settled hr (hq.step_punct hf .comma hr (by decide) (by simp))⟩
    next => exact .marker hq hf .imperative hr
    next => exact .marker hq hf .optional hr
    next h1 h2 h3 h4 h5 h6 h7 =>
      refine .unspecial hq hf hr hc ?_
      simp only [Context.special, expressionSpecial, List.mem_cons, List.not_mem_nil, or_false,
        not_or]
      exact ⟨h6, h7, h3, h4, h1, h2, h5⟩

theorem Sound.not_onlyEscape (hq : q.Sound) (hd : q.modes.head? = some .defaultText)
    (hr : q.rest = '(' :: cs) : q.scanner.onlyEscape = false := by
  apply q.holds.onlyEscape
  rw [List.reverse_reverse]
  intro hchars
  obtain ⟨p, hp, hchar⟩ := List.map_eq_singleton_iff.mp hchars
  cases p with
  | plain d =>
    obtain rfl : d = escapeChar := hchar
    -- The pair of characters would have been read together when the default began.
    have hhead := hq.literal hd (by rw [hp, hr]; exact ⟨cs, rfl⟩)
    simp [hp] at hhead
  | escaped d =>
    obtain rfl : d = escapeChar := hchar
    exact escapeChar_not_mem_special (hq.escapes _ (by simp [hp]))

theorem Sound.step_default (hq : q.Sound) {mode : Mode} {below : List Mode}
    (hm : q.modes = mode :: below) (hmode : mode = .defaultText ∨ mode = .afterDefault)
    (hr : q.rest = c :: cs) : q.scanner.step c = q.scanner.stepDefault below c := by
  have hmodes : q.scanner.modes = mode :: below := hm
  rcases hmode with rfl | rfl
  · have hopen : ¬ (c = '(' ∧ q.scanner.onlyEscape = true) := by
      rintro ⟨rfl, ho⟩
      rw [hq.not_onlyEscape (by rw [hm]; rfl) hr] at ho
      cases ho
    simp [Scanner.step, hmodes, Scanner.stepDefaultText, hopen]
  · simp [Scanner.step, hmodes]

theorem encloses_loop (q : Spot) (mode : Mode) :
    q.loop.encloses mode = true ↔ mode ∈ q.scanner.modes := by
  rw [ScanLoop.encloses_eq (l := q.loop) rfl, decide_eq_true_eq]
  rfl

theorem readDefault_reaches (hq : q.Sound) {mode : Mode} {below : List Mode}
    (hm : q.modes = mode :: below) (hmode : mode = .defaultText ∨ mode = .afterDefault)
    (hr : q.rest = c :: cs) : q.Reaches (q.loop.readDefault c) := by
  have hspecial : escapable q.dialect q.modes = defaultSpecial := by
    rcases hmode with rfl | rfl <;> simp [escapable, hm]
  have hne : escapable q.dialect q.modes ≠ [] := by simp [hspecial, defaultSpecial]
  have hheld : Held below := by
    refine (hm ▸ hq.stacked).held_below ?_ ?_ <;> rcases hmode with rfl | rfl <;> simp
  have hunescaped : ¬ (decide (c ∈ defaultSpecial) && q.scanner.afterEscape) = true := by
    simp only [Bool.and_eq_true, decide_eq_true_eq, not_and, Bool.not_eq_true]
    exact fun hc => hq.not_afterEscape (by rw [hr]; rfl) (by rwa [hspecial])
  have hstep := hq.step_default hm hmode hr
  rw [Scanner.stepDefault, if_neg hunescaped] at hstep
  rw [ScanLoop.readDefault]
  simp only [encloses_loop]
  by_cases hc : c = escapeChar
  · subst hc
    rw [if_pos rfl, ← hspecial]
    exact escape_loop hq hne hr
  rw [if_neg hc]
  by_cases hquestion : c = '?'
  · rw [if_pos hquestion] at hstep ⊢
    exact .leaves hq hr hm hheld hstep
  rw [if_neg hquestion] at hstep ⊢
  by_cases hangle : c = '>' ∧ .angle ∈ q.scanner.modes
  · rw [if_pos hangle] at hstep ⊢
    exact .close hq hr (.inr hangle.2) hstep
  rw [if_neg hangle] at hstep ⊢
  by_cases hparen : c = ')' ∧ .paren ∈ q.scanner.modes
  · rw [if_pos hparen] at hstep ⊢
    exact .close hq hr (.inr hparen.2) hstep
  rw [if_neg hparen] at hstep ⊢
  exact ⟨_, loop_push hr, next_plain hq hne hr (fun h => absurd h hc) hstep⟩

section

variable {marker : Marker} {below : List Mode}

theorem Sound.body (hq : q.Sound) (hm : q.modes = .body marker :: below) :
    q.pieces = [] ∧ Settled q.modes ∧ Held below ∧
      q.scanner = ⟨q.dialect, q.index, q.modes, .nothing, true⟩ := by
  have hpieces : q.pieces = [] := hq.quiet (by rw [hm]; rfl)
  have hheld : Held below := (hm ▸ hq.stacked).held_below (by simp) (by simp)
  have htokens : q.tokens ≠ [] := fun h => by simp [hq.opens h] at hm
  refine ⟨hpieces, ?_, hheld, by simp [scanner, hpieces, htokens]⟩
  rw [hm]
  exact .top hheld (by simp)

theorem Reaches.passes (hq : q.Sound) (hm : q.modes = .body marker :: below)
    {out : List Token} {taken : List Char} (ht : taken ≠ []) (hr : q.rest = taken ++ cs)
    (hread : q.scanner.read q.rest =
      out ++ (⟨q.dialect, q.index + taken.length, q.modes, .nothing, true⟩ : Scanner).read cs) :
    q.Reaches { q.loop with tokens := q.tokens ++ out, index := q.index + taken.length } := by
  obtain ⟨hpieces, hsettled, hheld, hscanner⟩ := hq.body hm
  refine ⟨_, ?_, next_finish hsettled ht hr (fun h => ?_) hread⟩
  · rw [loop_finish hr]
    simp [loop, hpieces, placed]
  · simp [hq.opens h] at hm

theorem Reaches.takeWord (hq : q.Sound) (hm : q.modes = .body marker :: below)
    {pend : Nat → List Char → Pending} {goesOn : Char → Bool} {value : List Char → TokenValue}
    (hg : Scanner.Gathers pend goesOn value) (hr : q.rest = c :: cs) (hc : goesOn c = true)
    (hstep : q.scanner.step c =
      ([], ⟨q.dialect, q.index + 1, q.modes, pend q.index [c], true⟩)) :
    q.Reaches (q.loop.takeWord goesOn value) := by
  have htaken : q.rest.takeWhile goesOn = c :: cs.takeWhile goesOn := by
    rw [hr, List.takeWhile_cons, if_pos hc]
  have hword : q.loop.takeWord goesOn value =
      { q.loop with
        tokens := q.tokens ++ [⟨value (c :: cs.takeWhile goesOn), q.index,
          q.index + (c :: cs.takeWhile goesOn).length⟩]
        index := q.index + (c :: cs.takeWhile goesOn).length } := by
    have hdrop : q.loop.text.drop q.loop.index = q.rest := q.text_drop
    rw [ScanLoop.takeWord, hdrop, htaken]
    rfl
  have hsplit : q.rest = c :: cs.takeWhile goesOn ++ cs.dropWhile goesOn := by
    rw [hr, List.cons_append, List.takeWhile_append_dropWhile]
  have hread := hg.read (s := ⟨q.dialect, q.index + 1, q.modes, pend q.index [c], true⟩) hm rfl cs
  rw [hword]
  refine .passes hq hm (List.cons_ne_nil _ _) hsplit ?_
  rw [hr, Scanner.read_cons, hstep, hread]
  simp [Nat.add_assoc, Nat.add_comm 1]

theorem readBody_reaches (hq : q.Sound) (hm : q.modes = .body marker :: below)
    (hr : q.rest = c :: cs) : q.Reaches (q.loop.readBody marker c) := by
  obtain ⟨hpieces, hsettled, hheld, hscanner⟩ := hq.body hm
  have hemit : ∀ p, q.loop.emit p = (q.loop.flush false).emit p := fun p => by
    rw [flush_of_nil hpieces]
  have hflush : q.scanner.flush = [] := by rw [hscanner]; rfl
  have hstep : q.scanner.step c = q.scanner.stepBodyFresh marker below c := by
    have hmodes : q.scanner.modes = .body marker :: below := hm
    simp only [Scanner.step, hmodes, Scanner.stepBody]
    rw [hscanner]
  have hnext : q.scanner.next q.scanner.modes =
    ⟨q.dialect, q.index + 1, q.modes, .nothing, true⟩ := rfl
  rw [Scanner.stepBodyFresh, hflush, hnext] at hstep
  rw [ScanLoop.readBody]
  simp only [encloses_loop, hemit]
  -- The loop and the scanner ask the same questions in the same order.
  by_cases hmarker : c = marker.punct.char
  · rw [if_pos hmarker] at hstep ⊢
    exact .leaves hq hr hm hheld hstep
  rw [if_neg hmarker] at hstep ⊢
  by_cases hhyphen : c = '-'
  · rw [if_pos hhyphen] at hstep ⊢
    exact ⟨_, emit_loop_same hq hr .hyphen, next_emit hsettled hr hstep⟩
  rw [if_neg hhyphen] at hstep ⊢
  by_cases hcolon : c = ':' ∧ marker = .optional
  · rw [if_pos hcolon] at hstep ⊢
    refine ⟨_, ?_, next_emit (.top hheld (by simp)) hr hstep⟩
    rw [ScanLoop.replace_eq (by rw [layers_emit hq, hm]), emit_loop hq hr]
  rw [if_neg hcolon] at hstep ⊢
  by_cases hangle : c = '>' ∧ .angle ∈ q.scanner.modes
  · rw [if_pos hangle] at hstep ⊢
    exact .close hq hr (.inr hangle.2) hstep
  rw [if_neg hangle] at hstep ⊢
  by_cases hparen : c = ')' ∧ .paren ∈ q.scanner.modes
  · rw [if_pos hparen] at hstep ⊢
    exact .close hq hr (.inr hparen.2) hstep
  rw [if_neg hparen] at hstep ⊢
  by_cases hblank : isBlank c = true
  · rw [if_pos hblank] at hstep ⊢
    have hread : q.scanner.read q.rest =
        [] ++ (⟨q.dialect, q.index + 1, q.modes, .nothing, true⟩ : Scanner).read cs := by
      rw [hr, Scanner.read_cons, hstep]
    have h := Reaches.passes hq hm (List.cons_ne_nil c []) hr hread
    rwa [List.append_nil] at h
  rw [if_neg hblank] at hstep ⊢
  by_cases hdigit : c.isDigit = true
  · rw [if_pos hdigit] at hstep ⊢
    exact .takeWord hq hm Scanner.gathers_number hr hdigit hstep
  rw [if_neg hdigit] at hstep ⊢
  by_cases hstart : isIdentStart c = true
  · rw [if_pos hstart] at hstep ⊢
    exact .takeWord hq hm Scanner.gathers_word hr (isIdentContinue_of_isIdentStart hstart) hstep
  rw [if_neg hstart] at hstep ⊢
  refine Reaches.passes hq hm (List.cons_ne_nil c []) hr ?_
  rw [hr, Scanner.read_cons, hstep]
  rfl

end

section

variable {below : List Mode}

/-- The spot where a default is known to be a literal. -/
def beginLiteral (q : Spot) (below : List Mode) : Spot :=
  { q with modes := .defaultText :: below }

theorem Sound.defaultStart (hq : q.Sound) (hm : q.modes = .defaultStart :: below) :
    q.pieces = [] ∧ Held below ∧ q.tokens ≠ [] :=
  ⟨hq.quiet (by rw [hm]; rfl), (hm ▸ hq.stacked).held_below (by simp) (by simp),
    fun h => by simp [hq.opens h] at hm⟩

theorem step_beginLiteral (hm : q.modes = .defaultStart :: below) (hc : c ≠ '(') :
    (q.beginLiteral below).scanner.step c = q.scanner.step c := by
  have hmodes : q.scanner.modes = .defaultStart :: below := hm
  have hliteral : (q.beginLiteral below).scanner =
    { q.scanner with modes := .defaultText :: below } := rfl
  simp [hliteral, Scanner.step, hmodes, Scanner.stepDefaultText, Scanner.stepDefaultStart, hc]

theorem next_beginLiteral (hq : q.Sound) (hm : q.modes = .defaultStart :: below)
    (hr : q.rest = c :: cs) (hc : c ≠ '(') (he : ¬ [escapeChar, '('] <+: q.rest) :
    q.Next (q.beginLiteral below) := by
  obtain ⟨hpieces, hheld, htokens⟩ := hq.defaultStart hm
  refine ⟨⟨⟨.top _ hheld, fun h => absurd h htokens, fun _ => hpieces, hq.escapes, ?_, ?_⟩, rfl,
    rfl, ?_⟩, ?_⟩
  · simp [beginLiteral, hpieces]
  · intro _ hp
    exact absurd (by simpa [beginLiteral, hpieces, piecesSource] using hp) he
  · have hrest : (q.beginLiteral below).rest = c :: cs := hr
    rw [Spot.total, Spot.total, hr, hrest, Scanner.read_cons, Scanner.read_cons,
      step_beginLiteral hm hc]
    rfl
  · simp [distance, beginLiteral, pause, hm]

theorem next_openLiteral (hq : q.Sound) (hm : q.modes = .defaultStart :: below)
    (hr : q.rest = escapeChar :: '(' :: cs) :
    q.Next ((q.beginLiteral below).push (.escaped '(') cs) := by
  obtain ⟨hpieces, hheld, htokens⟩ := hq.defaultStart hm
  let literal := q.beginLiteral below
  have hspecial : escapable literal.dialect literal.modes ≠ [] := List.cons_ne_nil _ _
  have hfirst : q.scanner.step escapeChar =
      ([], (literal.push (.plain escapeChar) ('(' :: cs)).scanner) := by
    rw [← step_beginLiteral hm (by decide), Scanner.step_escapeChar hspecial, literal.holds.extend,
      scanner_push]
    rfl
  have hsecond : (literal.push (.plain escapeChar) ('(' :: cs)).scanner.step '(' =
      ([], (literal.push (.escaped '(') cs).scanner) := by
    have hreverse : literal.pieces.reverse = [] := by rw [List.reverse_eq_nil_iff]; exact hpieces
    have hmodes : literal.scanner.modes = .defaultText :: below := rfl
    simp [scanner_push, Scanner.step, hmodes, Scanner.stepDefaultText, Scanner.onlyEscape, hreverse,
      Scanner.escape, Piece.width]
  refine ⟨⟨⟨.top _ hheld, fun h => absurd h htokens, ?_, ?_, ?_, ?_⟩, rfl, ?_, ?_⟩, ?_⟩
  · simp [beginLiteral, push, escapable, defaultSpecial]
  · simp [beginLiteral, push, hpieces, EscapesSpecial, expressionSpecial]
  · simp [beginLiteral, push, hpieces]
  · simp [beginLiteral, push, hpieces]
  · simp [beginLiteral, push, hpieces, text, hr, piecesSource, Piece.source]
  · rw [Spot.total, Spot.total, hr, Scanner.read_cons, hfirst, Scanner.read_cons, hsecond]
    rfl
  · simp only [distance, beginLiteral, push, pause, hm, hr, List.length_cons]
    omega

theorem readDefaultStart_reaches (hq : q.Sound) (hm : q.modes = .defaultStart :: below)
    (hr : q.rest = c :: cs) : q.Reaches (q.loop.readDefaultStart c) := by
  obtain ⟨hpieces, hheld, htokens⟩ := hq.defaultStart hm
  have hmodes : q.scanner.modes = .defaultStart :: below := hm
  have hreplace : ∀ mode, q.loop.replace mode =
      { q.loop with layers := (mode :: below).map .inner ++ [.root q.dialect.root] } := fun mode =>
    ScanLoop.replace_eq (by rw [← hm]; rfl) mode
  have hliteral : q.loop.replace .defaultText = (q.beginLiteral below).loop := by
    rw [hreplace]
    rfl
  rw [ScanLoop.readDefaultStart]
  by_cases hopen : c = '('
  · subst hopen
    have hstep : q.scanner.step '(' =
        q.scanner.emit .openParen (.paren :: .afterDefault :: below) := by
      simp [Scanner.step, hmodes, Scanner.stepDefaultStart]
    refine ⟨_, ?_, next_emit hheld.default.settled hr hstep⟩
    rw [if_pos rfl, emit_loop hq hr, flush_of_nil hpieces, hreplace]
    rfl
  rw [if_neg hopen]
  have hnext : q.loop.text[q.loop.index + 1]? = cs.head? :=
    (q.text_getElem? 1).trans (by rw [hr, List.head?_eq_getElem?]; rfl)
  by_cases hescape : c = escapeChar ∧ q.loop.text[q.loop.index + 1]? = some '('
  · rw [if_pos hescape, hliteral]
    rw [hnext] at hescape
    obtain ⟨rfl, hhead⟩ := hescape
    obtain ⟨rest, rfl⟩ := List.head?_eq_some_iff.mp hhead
    exact ⟨_, loop_push hr, next_openLiteral hq hm hr⟩
  · rw [if_neg hescape, hliteral]
    refine ⟨_, rfl, next_beginLiteral hq hm hr hopen ?_⟩
    rintro ⟨rest, hrest⟩
    rw [hr] at hrest
    cases hrest
    exact hescape ⟨rfl, hnext⟩

end

/-- A round of the loop leads on while there is a character to be read. -/
theorem turn_reaches (hq : q.Sound) (hr : q.rest = c :: cs) : q.Reaches q.loop.turn := by
  have hc : q.loop.text[q.loop.index]? = some c := (q.text_getElem? 0).trans (by rw [hr]; rfl)
  unfold ScanLoop.turn
  rw [hc]
  cases hm : q.modes with
  | nil =>
    have htop : q.loop.top = .root q.dialect.root := by simp [ScanLoop.top, loop, hm]
    have hf : Scanner.Frame q.dialect q.modes q.dialect.root := hm ▸ .root
    cases hd : q.dialect.root with
    | text => simpa [htop, hd] using readText_reaches hq (hd ▸ hf) hm hr
    | expression => simpa [htop, hd] using readExpression_reaches hq (hd ▸ hf) hr
  | cons mode below =>
    have htop : q.loop.top = .inner mode := by simp [ScanLoop.top, loop, hm]
    simp only [htop]
    cases mode with
    | angle => exact readExpression_reaches hq (hm ▸ .angle below) hr
    | paren => exact readExpression_reaches hq (hm ▸ .paren below) hr
    | body marker => exact readBody_reaches hq hm hr
    | defaultStart => exact readDefaultStart_reaches hq hm hr
    | defaultText => exact readDefault_reaches hq hm (.inl rfl) hr
    | afterDefault => exact readDefault_reaches hq hm (.inr rfl) hr

theorem turn_end (hr : q.rest = []) : q.loop.turn = q.loop := by
  have hc : q.loop.text[q.loop.index]? = none := (q.text_getElem? 0).trans (by rw [hr]; rfl)
  rw [ScanLoop.turn, hc]

theorem Leads.trans {q₁ q₂ q₃ : Spot} (h : q₁.Leads q₂) (h' : q₂.Leads q₃) : q₁.Leads q₃ :=
  ⟨h'.sound, h'.dialect.trans h.dialect, h'.text.trans h.text, h'.total.trans h.total⟩

/-- Every state of the loop is one at a spot of the scan. -/
theorem turns_leads (hq : q.Sound) (n : Nat) : ∃ q', q.loop.turns n = q'.loop ∧ q.Leads q' := by
  induction n generalizing q with
  | zero => exact ⟨q, rfl, hq, rfl, rfl, rfl⟩
  | succ n ih =>
    rw [ScanLoop.turns]
    cases hr : q.rest with
    | nil =>
      rw [turn_end hr]
      exact ih hq
    | cons c cs =>
      obtain ⟨q₁, hturn, hnext⟩ := turn_reaches hq hr
      obtain ⟨q₂, hturns, hleads⟩ := ih hnext.sound
      rw [hturn]
      exact ⟨q₂, hturns, hnext.toLeads.trans hleads⟩

/-- The loop comes to the end of the text. -/
theorem turns_end (hq : q.Sound) :
    ∃ n ≤ q.distance, ∃ q', q.loop.turns n = q'.loop ∧ q.Leads q' ∧ q'.rest = [] := by
  -- Each round brings the end nearer, also the one in which nothing is read.
  generalize hd : q.distance = d
  induction d using Nat.strongRecOn generalizing q with
  | ind d ih =>
    cases hr : q.rest with
    | nil => exact ⟨0, Nat.zero_le d, q, rfl, ⟨hq, rfl, rfl, rfl⟩, hr⟩
    | cons c cs =>
      obtain ⟨q₁, hturn, hnext⟩ := turn_reaches hq hr
      have hcloser := hnext.closer
      obtain ⟨n, hn, q₂, hturns, hleads, hend⟩ := ih q₁.distance (by omega) hnext.sound rfl
      refine ⟨n + 1, by omega, q₂, ?_, hnext.toLeads.trans hleads, hend⟩
      rw [ScanLoop.turns, hturn, hturns]

end

end Spot

/-- What holds whenever the loop looks for the next character. -/
structure ScanLoop.WellFormed (dialect : Dialect) (text : String) (l : ScanLoop) : Prop where
  same : l.dialect = dialect ∧ l.text = text.toList
  within : l.index ≤ l.text.length
  bottom : l.layers.getLast? = some (.root dialect.root)
  above : ∀ layer ∈ l.layers.dropLast, ∃ mode, layer = .inner mode
  /-- Bodies of substitutions, and defaults that are still to be decided or literal, are on top. -/
  below : ∀ i mode, l.layers[i + 1]? = some (.inner mode) →
    mode = .angle ∨ mode = .paren ∨ mode = .afterDefault
  covered : ∀ i, l.layers[i + 1]? = some (.inner .afterDefault) →
    l.layers[i]? = some (.inner .paren)
  idle : (∃ marker, l.top = .inner (.body marker)) ∨ l.top = .inner .defaultStart → l.run = []
  /-- Each piece is what the text has at its place, and the next one, or the end, is behind it. -/
  contiguous : ∀ i x, l.run[i]? = some x → x.piece.source <+: l.text.drop x.position ∧
    x.position + x.piece.width = ScanLoop.positionAt l.run l.index (i + 1)
  unrefused : l.refused = false

theorem getElem?_layers {modes : List Mode} {context : Context} {i : Nat} {mode : Mode} :
    (modes.map Layer.inner ++ [.root context])[i]? = some (.inner mode) ↔
      modes[i]? = some mode := by
  by_cases hi : i < modes.length
  · rw [List.getElem?_append_left (by simpa using hi)]
    simp
  · have hnone : modes[i]? = none := by simpa using hi
    rw [List.getElem?_append_right (by simpa using hi), hnone]
    cases i - (modes.map Layer.inner).length <;> simp

theorem placed_contiguous (before : List Char) (pieces : List Piece) (rest : List Char) {i : Nat}
    {x : PlacedPiece} (hx : (placed before.length pieces)[i]? = some x) :
    x.piece.source <+: (before ++ piecesSource pieces ++ rest).drop x.position ∧
      x.position + x.piece.width = before.length + piecesWidth (pieces.take (i + 1)) := by
  induction pieces generalizing before i with
  | nil => simp [placed] at hx
  | cons p pieces ih =>
    have hwidth : (before ++ p.source).length = before.length + p.width := by
      cases p <;> simp [Piece.source, Piece.width]
    have htext : before ++ piecesSource (p :: pieces) ++ rest =
        before ++ p.source ++ piecesSource pieces ++ rest := by
      simp [piecesSource]
    cases i with
    | zero =>
      obtain rfl : ⟨p, before.length⟩ = x := by simpa [placed] using hx
      refine ⟨⟨piecesSource pieces ++ rest, ?_⟩, by simp [piecesWidth]⟩
      simp [htext]
    | succ i =>
      have hx : (placed (before ++ p.source).length pieces)[i]? = some x := by
        rw [hwidth]
        simpa [placed] using hx
      obtain ⟨hsource, hnext⟩ := ih (before ++ p.source) hx
      rw [htext, hnext, hwidth, List.take_succ_cons, piecesWidth, Nat.add_assoc]
      exact ⟨hsource, rfl⟩

theorem Spot.Sound.wellFormed {q : Spot} (hq : q.Sound) {dialect : Dialect} {text : String}
    (hd : q.dialect = dialect) (ht : q.text = text.toList) : q.loop.WellFormed dialect text where
  same := ⟨hd, ht⟩
  within := by
    change q.index ≤ q.text.length
    rw [q.index_eq]
    exact (List.prefix_append _ q.rest).length_le
  bottom := by simp [Spot.loop, hd]
  above := by simp [Spot.loop]
  below _ _ hi := hq.stacked.lies_below (getElem?_layers.mp hi)
  covered _ hi := getElem?_layers.mpr (hq.stacked.covered (getElem?_layers.mp hi))
  idle h := by
    have hpieces : q.pieces = [] := by
      refine hq.quiet ?_
      cases hm : q.modes with
      | nil => simp [ScanLoop.top, Spot.loop, hm] at h
      | cons mode below => cases mode <;> simp_all [ScanLoop.top, Spot.loop, escapable]
    simp [Spot.loop, hpieces, placed]
  contiguous i x hx := by
    obtain ⟨hsource, hnext⟩ := placed_contiguous q.before q.pieces q.rest hx
    exact ⟨hsource, hnext.trans (Spot.positionAt_placed ..).symm⟩
  unrefused := rfl

/-- The spot at which a scan begins. -/
def Spot.initial (dialect : Dialect) (text : String) : Spot :=
  ⟨dialect, [], [], [], [], text.toList⟩

theorem Spot.sound_initial (dialect : Dialect) (text : String) :
    (Spot.initial dialect text).Sound where
  stacked := .held .nil
  opens _ := rfl
  quiet _ := rfl
  escapes := by simp [initial, EscapesSpecial]
  kept := by simp [initial]
  literal := by simp [initial]

/-- Modes and pending text are in order between any two characters of a text. The loop that scans
it by position keeps its layers and its pending text in order in every round and never tries to give
up the root. It ends after two rounds for each character at most, with the tokens of the text. -/
theorem scan_wellFormed (dialect : Dialect) (text : String) :
    (∀ front rest, text.toList = front ++ rest →
      ((Scanner.initial dialect).advance front).2.WellFormed front) ∧
    (∀ n, ((ScanLoop.initial dialect text).turns n).WellFormed dialect text) ∧
    ∃ n ≤ 2 * text.toList.length,
      ((ScanLoop.initial dialect text).turns n).index = text.toList.length ∧
      ((ScanLoop.initial dialect text).turns n).finished = scan dialect text := by
  have hloop : ScanLoop.initial dialect text = (Spot.initial dialect text).loop := rfl
  have hsound := Spot.sound_initial dialect text
  rw [hloop]
  refine ⟨fun front _ _ => (Scanner.advance_behind dialect front).wellFormed, fun n => ?_, ?_⟩
  · obtain ⟨q, hturns, hleads⟩ := Spot.turns_leads hsound n
    rw [hturns]
    exact hleads.sound.wellFormed hleads.dialect hleads.text
  · obtain ⟨n, hn, q, hturns, hleads, hend⟩ := Spot.turns_end hsound
    refine ⟨n, hn, ?_, ?_⟩
    · have htext : q.text = text.toList := hleads.text
      rw [hturns, ← htext, Spot.text, hend, List.append_nil]
      exact q.index_eq
    · have htotal := hleads.total
      rw [Spot.total, hend, Scanner.read_nil] at htotal
      rw [hturns, ScanLoop.finished, Spot.flush_loop hleads.sound]
      exact htotal

end CommandTemplate
