import CommandTemplate.Token.Scanner

namespace CommandTemplate

theorem mem_expressionSpecial_of_textSpecial {c : Char} (h : c ∈ textSpecial) :
    c ∈ expressionSpecial := by
  simp only [textSpecial, expressionSpecial, List.mem_cons] at h ⊢
  grind

theorem mem_expressionSpecial_of_defaultSpecial {c : Char} (h : c ∈ defaultSpecial) :
    c ∈ expressionSpecial := by
  simp only [defaultSpecial, expressionSpecial, List.mem_cons] at h ⊢
  grind

namespace Scanner

/-- The modes after a punctuation token. -/
def afterPunct (modes : List Mode) : Punct → List Mode
  | .openAngle => .angle :: modes
  | .closeAngle => if .angle ∈ modes then leave .angle modes else modes
  | .openParen =>
    match modes with
    | .defaultStart :: below => .paren :: .afterDefault :: below
    | _ => .paren :: modes
  | .closeParen => if .paren ∈ modes then leave .paren modes else modes
  | .comma => modes
  | .exclamation =>
    match modes with
    | .body .imperative :: below => below
    | _ => .body .imperative :: modes
  | .question =>
    match modes with
    | .body .optional :: below => below
    | .defaultStart :: below => below
    | .defaultText :: below => below
    | .afterDefault :: below => below
    | _ => .body .optional :: modes
  | .colon => .defaultStart :: modes.drop 1
  | .hyphen => modes

/-- Whether the scanner stands between the markers of a substitution. -/
def inBody (s : Scanner) : Bool :=
  match s.modes with
  | .body _ :: _ => true
  | _ => false

/-- Whether characters are read as an expression. -/
def inExpression (s : Scanner) : Bool :=
  match s.modes with
  | [] => s.dialect.root == .expression
  | .angle :: _ => true
  | .paren :: _ => true
  | _ => false

/-- The characters that are punctuation where text is read. -/
def special (s : Scanner) : List Char :=
  match s.modes with
  | [] => s.dialect.root.special
  | .angle :: _ => expressionSpecial
  | .paren :: _ => expressionSpecial
  | modes =>
    '?' :: (if .angle ∈ modes then ['>'] else []) ++ (if .paren ∈ modes then [')'] else [])

/-- The first character of a default that is not a parenthesis makes it a literal. -/
def entered (s : Scanner) : Scanner :=
  match s.modes with
  | .defaultStart :: below => { s with modes := .defaultText :: below }
  | _ => s

/-- Numbers and words are pending only between markers, text only elsewhere, and nothing at the
start of a default. -/
def Fits (s : Scanner) : Prop :=
  match s.pending with
  | .nothing => True
  | .run _ pieces => pieces ≠ [] ∧ s.inBody = false ∧ s.modes.head? ≠ some .defaultStart
  | .number _ _ => s.inBody = true
  | .word _ _ => s.inBody = true

/-- The places of the punctuation that is read in one mode only. -/
def Places (s : Scanner) : Punct → Prop
  | .openParen => s.modes.head? = some .defaultStart
  | .colon => s.inBody = true
  | _ => True

/-- Everything that reading one character can do. -/
inductive Move (s : Scanner) (c : Char) : List Token → Scanner → Prop
  | plain : s.inBody = false → c ∉ s.special →
      (s.modes.head? = some .defaultText → c = '(' → s.onlyEscape = false) →
      Move s c [] (s.entered.extend (.plain c)).2
  | escape : s.inBody = false → s.afterEscape = true → c ∈ expressionSpecial →
      (s.modes.head? = some .defaultText → c = '(' → s.onlyEscape = true) →
      Move s c [] (s.escape c).2
  | punct (p : Punct) : c = p.char → (s.inBody = false → s.afterEscape = false) →
      s.Places p →
      Move s c (s.flush ++ [s.punctToken p]) (s.next (afterPunct s.modes p))
  | call : c = '(' → s.inExpression = true → s.afterEscape = false →
      Move s c (s.flushBeforeParen ++ [s.punctToken .openParen]) (s.next (.paren :: s.modes))
  | moreDigits (start : Nat) (digits : List Char) : s.pending = .number start digits →
      c.isDigit = true →
      Move s c [] { s with offset := s.offset + 1, pending := .number start (c :: digits) }
  | moreLetters (start : Nat) (letters : List Char) : s.pending = .word start letters →
      isIdentContinue c = true →
      Move s c [] { s with offset := s.offset + 1, pending := .word start (c :: letters) }
  | blank : s.inBody = true → isBlank c = true → Move s c s.flush (s.next s.modes)
  | number : s.inBody = true → c.isDigit = true →
      Move s c s.flush { s.next s.modes with pending := .number s.offset [c] }
  | word : s.inBody = true → isIdentStart c = true →
      Move s c s.flush { s.next s.modes with pending := .word s.offset [c] }
  | odd : s.inBody = true →
      Move s c (s.flush ++ [⟨.text (String.singleton c), s.offset, s.offset + 1⟩])
        (s.next s.modes)

/-- The outcome of a step is one of these moves. -/
def Moves (s : Scanner) (c : Char) (r : List Token × Scanner) : Prop :=
  Move s c r.1 r.2

theorem emit_move {s : Scanner} {c : Char} {p : Punct} {modes : List Mode} (hc : c = p.char)
    (he : s.inBody = false → s.afterEscape = false) (hm : afterPunct s.modes p = modes)
    (ho : s.Places p := by trivial) :
    s.Moves c (s.emit p modes) := by
  subst hm
  exact .punct p hc he ho

theorem extend_move {s : Scanner} {c : Char} (hb : s.inBody = false) (he : s.entered = s)
    (hc : c ∉ s.special)
    (ho : s.modes.head? = some .defaultText → c = '(' → s.onlyEscape = false) :
    s.Moves c (s.extend (.plain c)) := by
  have h := Move.plain hb hc ho
  rwa [he] at h

theorem stepText_move {s : Scanner} (hm : s.modes = []) (hd : s.dialect.root = .text) (c : Char) :
    s.Moves c (s.stepText c) := by
  have hb : s.inBody = false := by simp [inBody, hm]
  have he : s.entered = s := by simp [entered, hm]
  have hs : s.special = textSpecial := by simp [special, hm, hd, Context.special]
  unfold stepText
  split
  next h =>
    simp only [Bool.and_eq_true, decide_eq_true_eq] at h
    exact .escape hb h.2 (mem_expressionSpecial_of_textSpecial h.1) (by simp [hm])
  next h =>
    have ha : c ∈ textSpecial → s.afterEscape = false := by
      intro hc
      simpa [hc] using h
    split
    next => exact emit_move rfl (fun _ => ha (by decide)) rfl
    next => exact emit_move rfl (fun _ => ha (by decide)) (by simp [afterPunct, hm])
    next => exact emit_move rfl (fun _ => ha (by decide)) (by simp [afterPunct, hm])
    next => exact emit_move rfl (fun _ => ha (by decide)) (by simp [afterPunct, hm])
    next h1 h2 h3 h4 =>
      refine extend_move hb he ?_ (by simp [hm])
      simp only [hs, textSpecial, List.mem_cons, List.not_mem_nil, or_false, not_or]
      exact ⟨h3, h4, h1, h2⟩

theorem stepExpression_move {s : Scanner} (hi : s.inExpression = true) (c : Char) :
    s.Moves c (s.stepExpression c) := by
  have hb : s.inBody = false := by
    unfold inExpression at hi
    unfold inBody
    split at hi <;> simp_all
  have he : s.entered = s := by
    unfold inExpression at hi
    unfold entered
    split at hi <;> simp_all
  have hs : s.special = expressionSpecial := by
    unfold inExpression at hi
    unfold special
    split at hi <;> simp_all [Context.special]
  have hd : s.modes.head? ≠ some .defaultText := by
    unfold inExpression at hi
    split at hi <;> simp_all
  have hquestion : afterPunct s.modes .question = .body .optional :: s.modes := by
    unfold inExpression at hi
    split at hi <;> simp_all [afterPunct]
  have hexclamation : afterPunct s.modes .exclamation = .body .imperative :: s.modes := by
    unfold inExpression at hi
    split at hi <;> simp_all [afterPunct]
  unfold stepExpression
  split
  next h =>
    simp only [Bool.and_eq_true, decide_eq_true_eq] at h
    exact .escape hb h.2 h.1 fun hh => absurd hh hd
  next h =>
    have ha : c ∈ expressionSpecial → s.afterEscape = false := by
      intro hc
      simpa [hc] using h
    split
    next => exact emit_move rfl (fun _ => ha (by decide)) rfl
    next => exact emit_move rfl (fun _ => ha (by decide)) rfl
    next => exact .call rfl hi (ha (by decide))
    next => exact emit_move rfl (fun _ => ha (by decide)) rfl
    next => exact emit_move rfl (fun _ => ha (by decide)) rfl
    next => exact emit_move rfl (fun _ => ha (by decide)) hexclamation
    next => exact emit_move rfl (fun _ => ha (by decide)) hquestion
    next h1 h2 h3 h4 h5 h6 h7 =>
      refine extend_move hb he ?_ fun hh => absurd hh hd
      simp only [hs, expressionSpecial, List.mem_cons, List.not_mem_nil, or_false, not_or]
      exact ⟨h6, h7, h1, h2, h3, h4, h5⟩

theorem stepBodyFresh_move {s : Scanner} {marker : Marker} {below : List Mode}
    (hm : s.modes = .body marker :: below) (c : Char) :
    s.Moves c (s.stepBodyFresh marker below c) := by
  have hb : s.inBody = true := by simp [inBody, hm]
  have ha : s.inBody = false → s.afterEscape = false := by simp [hb]
  unfold stepBodyFresh
  split
  next h =>
    refine emit_move h ha ?_ (by cases marker <;> trivial)
    cases marker <;> simp [afterPunct, Marker.punct, hm]
  split
  next h => exact emit_move h ha rfl
  split
  next h => exact emit_move h.1 ha (by simp [afterPunct, hm]) hb
  split
  next h => exact emit_move h.1 ha rfl
  split
  next h => exact emit_move h.1 ha rfl
  split
  next h => exact .blank hb h
  split
  next h => exact .number hb h
  split
  next h => exact .word hb h
  next => exact .odd hb

theorem stepBody_move {s : Scanner} {marker : Marker} {below : List Mode}
    (hm : s.modes = .body marker :: below) (c : Char) :
    s.Moves c (s.stepBody marker below c) := by
  unfold stepBody
  split
  next start digits hp =>
    split
    next h => exact .moreDigits start digits hp h
    next => exact stepBodyFresh_move hm c
  next start letters hp =>
    split
    next h => exact .moreLetters start letters hp h
    next => exact stepBodyFresh_move hm c
  next => exact stepBodyFresh_move hm c

theorem stepDefault_move {s : Scanner} {mode : Mode} {below : List Mode}
    (hm : s.modes = mode :: below) (hmode : mode = .defaultText ∨ mode = .afterDefault) {c : Char}
    (ho : s.modes.head? = some .defaultText → c = '(' → s.onlyEscape = false) :
    s.Moves c (s.stepDefault below c) := by
  have hb : s.inBody = false := by rcases hmode with rfl | rfl <;> simp [inBody, hm]
  have he : s.entered = s := by rcases hmode with rfl | rfl <;> simp [entered, hm]
  have hquestion : afterPunct s.modes .question = below := by
    rcases hmode with rfl | rfl <;> simp [afterPunct, hm]
  have hs : s.special = '?' :: (if .angle ∈ s.modes then ['>'] else []) ++
      (if .paren ∈ s.modes then [')'] else []) := by
    rcases hmode with rfl | rfl <;> simp [special, hm]
  unfold stepDefault
  split
  next h =>
    simp only [Bool.and_eq_true, decide_eq_true_eq] at h
    refine .escape hb h.2 (mem_expressionSpecial_of_defaultSpecial h.1) fun _ hc => ?_
    rw [hc] at h
    exact absurd h.1 (by decide)
  next h =>
    have ha : c ∈ defaultSpecial → s.afterEscape = false := by
      intro hc
      simpa [hc] using h
    split
    next hc => exact emit_move hc (fun _ => ha (by subst hc; decide)) hquestion
    split
    next hc => exact emit_move hc.1 (fun _ => ha (by rw [hc.1]; decide)) rfl
    split
    next hc => exact emit_move hc.1 (fun _ => ha (by rw [hc.1]; decide)) rfl
    next h1 h2 h3 =>
      refine extend_move hb he ?_ ho
      rw [hs]
      grind

theorem stepDefaultText_move {s : Scanner} {below : List Mode}
    (hm : s.modes = .defaultText :: below) (c : Char) :
    s.Moves c (s.stepDefaultText below c) := by
  have hb : s.inBody = false := by simp [inBody, hm]
  unfold stepDefaultText
  split
  next h =>
    have ha : s.afterEscape = true := by
      have ho := h.2
      unfold onlyEscape at ho
      split at ho
      next hp => simpa [afterEscape, hp] using ho
      next => simp at ho
    exact .escape hb ha (by rw [h.1]; decide) fun _ _ => h.2
  next h => exact stepDefault_move hm (.inl rfl) fun _ hc => by simpa [hc] using h

theorem leave_cons_of_ne {mode top : Mode} (h : top ≠ mode) (below : List Mode) :
    leave mode (top :: below) = leave mode below := by
  simp [leave, h]

theorem stepDefaultStart_move {s : Scanner} {below : List Mode}
    (hm : s.modes = .defaultStart :: below) (hp : s.pending = .nothing) (c : Char) :
    s.Moves c (s.stepDefaultStart below c) := by
  have hb : s.inBody = false := by simp [inBody, hm]
  have ha : s.afterEscape = false := by simp [afterEscape, hp]
  unfold stepDefaultStart
  split
  next h => exact emit_move h (fun _ => ha) (by simp [afterPunct, hm]) (by simp [Places, hm])
  unfold stepDefault
  split
  next h => simp [afterEscape, hp] at h
  split
  next hc => exact emit_move hc (fun _ => ha) (by simp [afterPunct, hm])
  split
  next hc =>
    refine emit_move (s := s) hc.1 (fun _ => ha) ?_
    have hin : Mode.angle ∈ below := by simpa using hc.2
    simp [afterPunct, hm, hin, leave_cons_of_ne]
  split
  next hc =>
    refine emit_move (s := s) hc.1 (fun _ => ha) ?_
    have hin : Mode.paren ∈ below := by simpa using hc.2
    simp [afterPunct, hm, hin, leave_cons_of_ne]
  next h1 h2 h3 =>
    have hc : c ∉ s.special := by
      simp only [special, hm]
      grind
    have h := Move.plain hb hc (by simp [hm])
    simp only [entered, hm] at h
    exact h

theorem step_move {s : Scanner} (hs : s.Fits) (c : Char) : Move s c (s.step c).1 (s.step c).2 := by
  show s.Moves c (s.step c)
  unfold step
  split
  next hm =>
    split
    next hd => exact stepText_move hm hd c
    next hd => exact stepExpression_move (by simp [inExpression, hm, hd]) c
  next hm => exact stepExpression_move (by simp [inExpression, hm]) c
  next hm => exact stepExpression_move (by simp [inExpression, hm]) c
  next hm => exact stepBody_move hm c
  next hm =>
    refine stepDefaultStart_move hm ?_ c
    unfold Fits at hs
    split at hs <;> simp_all [inBody]
  next hm => exact stepDefaultText_move hm c
  next hm => exact stepDefault_move hm (.inr rfl) (by simp [hm])

theorem entered_eq (s : Scanner) :
    s.entered = s ∨ ∃ below, s.modes = .defaultStart :: below ∧
      s.entered = { s with modes := .defaultText :: below } := by
  unfold entered
  split
  next below hm => exact .inr ⟨below, hm, rfl⟩
  next => exact .inl rfl

@[simp] theorem entered_pending (s : Scanner) : s.entered.pending = s.pending := by
  rcases s.entered_eq with h | ⟨_, _, h⟩ <;> rw [h]

@[simp] theorem entered_offset (s : Scanner) : s.entered.offset = s.offset := by
  rcases s.entered_eq with h | ⟨_, _, h⟩ <;> rw [h]

@[simp] theorem entered_inBody (s : Scanner) : s.entered.inBody = s.inBody := by
  rcases s.entered_eq with h | ⟨below, hm, h⟩
  · rw [h]
  · simp [h, inBody, hm]

theorem entered_head_ne (s : Scanner) : s.entered.modes.head? ≠ some .defaultStart := by
  unfold entered
  split
  next => simp
  next h =>
    intro hh
    obtain ⟨below, hb⟩ := List.head?_eq_some_iff.mp hh
    exact h below hb

theorem extend_pending (s : Scanner) (piece : Piece) :
    ∃ start pieces, (s.extend piece).2.pending = .run start (piece :: pieces) := by
  unfold extend
  split
  next start pieces _ => exact ⟨start, pieces, rfl⟩
  next => exact ⟨s.offset, [], rfl⟩

theorem afterEscape_pending {s : Scanner} (h : s.afterEscape = true) :
    ∃ start pieces, s.pending = .run start (.plain escapeChar :: pieces) := by
  unfold afterEscape at h
  split at h
  next start c pieces hp =>
    obtain rfl := eq_of_beq h
    exact ⟨start, pieces, hp⟩
  next => simp at h

theorem Move.fits {s t : Scanner} {c : Char} {out : List Token} (h : Move s c out t)
    (hs : s.Fits) : t.Fits := by
  cases h with
  | plain hb hc ho =>
    obtain ⟨start, pieces, hp⟩ := s.entered.extend_pending (.plain c)
    have hbody : s.entered.inBody = false := by rw [entered_inBody, hb]
    simp only [Fits, hp]
    exact ⟨by simp, hbody, s.entered_head_ne⟩
  | escape hb ha hc ho =>
    obtain ⟨start, pieces, hp⟩ := afterEscape_pending ha
    simp only [Fits, hp] at hs
    simp only [Fits, Scanner.escape, hp]
    exact ⟨by simp, hb, hs.2.2⟩
  | punct p hc he ho => trivial
  | call hc hi ha => trivial
  | moreDigits start digits hp hc =>
    have hb : s.inBody = true := by simpa [Fits, hp] using hs
    exact hb
  | moreLetters start letters hp hc =>
    have hb : s.inBody = true := by simpa [Fits, hp] using hs
    exact hb
  | blank hb hc => trivial
  | number hb hc => exact hb
  | word hb hc => exact hb
  | odd hb => trivial

theorem Move.dialect_eq {s t : Scanner} {c : Char} {out : List Token} (h : Move s c out t) :
    t.dialect = s.dialect := by
  cases h with
  | plain hb hc ho =>
    rcases s.entered_eq with he | ⟨_, _, he⟩ <;> rw [he] <;> rfl
  | _ => rfl

theorem Move.offset_eq {s t : Scanner} {c : Char} {out : List Token} (h : Move s c out t) :
    t.offset = s.offset + 1 := by
  cases h with
  | plain hb hc ho => simp [Scanner.extend]
  | _ => rfl

theorem advance_fits {s : Scanner} (hf : s.Fits) (cs : List Char) : (s.advance cs).2.Fits := by
  induction cs generalizing s with
  | nil => exact hf
  | cons c cs ih => exact ih ((step_move hf c).fits hf)

theorem advance_dialect {s : Scanner} (hf : s.Fits) (cs : List Char) :
    (s.advance cs).2.dialect = s.dialect := by
  induction cs generalizing s with
  | nil => rfl
  | cons c cs ih =>
    have hmove := step_move hf c
    exact (ih (hmove.fits hf)).trans hmove.dialect_eq

theorem advance_offset {s : Scanner} (hf : s.Fits) (cs : List Char) :
    (s.advance cs).2.offset = s.offset + cs.length := by
  induction cs generalizing s with
  | nil => rfl
  | cons c cs ih =>
    have hmove := step_move hf c
    have hrest := ih (hmove.fits hf)
    have hstep := hmove.offset_eq
    simp only [advance, List.length_cons]
    omega

/-- All tokens from a state on, up to the end of the text. -/
def read (s : Scanner) (cs : List Char) : List Token :=
  (s.advance cs).1 ++ (s.advance cs).2.flush

theorem read_nil (s : Scanner) : s.read [] = s.flush := rfl

theorem read_cons (s : Scanner) (c : Char) (cs : List Char) :
    s.read (c :: cs) = (s.step c).1 ++ (s.step c).2.read cs := by
  simp [read, advance]

theorem advance_append (s : Scanner) (as bs : List Char) :
    s.advance (as ++ bs) =
      ((s.advance as).1 ++ ((s.advance as).2.advance bs).1, ((s.advance as).2.advance bs).2) := by
  induction as generalizing s with
  | nil => rfl
  | cons a as ih => simp [advance, ih]

/-- Only an escape character can be an escape that is still open. -/
theorem Move.eq_escapeChar {s t : Scanner} {c : Char} {out : List Token} (h : Move s c out t)
    (ht : t.afterEscape = true) : c = escapeChar := by
  cases h with
  | plain hb hc ho =>
    obtain ⟨start, pieces, hp⟩ := s.entered.extend_pending (.plain c)
    simpa [afterEscape, hp] using ht
  | escape hb ha hc ho =>
    obtain ⟨start, pieces, hp⟩ := afterEscape_pending ha
    simp [afterEscape, Scanner.escape, hp] at ht
  | _ => cases ht

/-- After a text that does not end in an escape character no escape is open. -/
theorem advance_afterEscape {s : Scanner} (hf : s.Fits) (ha : s.afterEscape = false)
    {cs : List Char} (hl : cs.getLast? ≠ some escapeChar) :
    (s.advance cs).2.afterEscape = false := by
  rcases List.eq_nil_or_concat cs with rfl | ⟨front, c, rfl⟩
  · exact ha
  · rw [List.concat_eq_append, List.getLast?_concat] at hl
    have hmove := step_move (advance_fits hf front) c
    rw [List.concat_eq_append, advance_append]
    cases he : ((s.advance front).2.step c).2.afterEscape with
    | false => exact he
    | true => exact absurd (congrArg some (hmove.eq_escapeChar he)) hl

theorem read_append (s : Scanner) (as bs : List Char) :
    s.read (as ++ bs) = (s.advance as).1 ++ (s.advance as).2.read bs := by
  simp [read, advance_append]

end Scanner

theorem scan_eq_read (dialect : Dialect) (text : String) :
    scan dialect text = (Scanner.initial dialect).read text.toList := rfl

end CommandTemplate
