import CommandTemplate.Expr.Render
import CommandTemplate.Proofs.ScannerShift
import CommandTemplate.Proofs.TokenStream

namespace CommandTemplate

namespace Scanner

/-- The contents of the tokens from a place between two tokens on. -/
def valuesAt (dialect : Dialect) (started : Bool) (modes : List Mode) (cs : List Char) :
    List TokenValue :=
  ((⟨dialect, 0, modes, .nothing, started⟩ : Scanner).read cs).map Token.value

theorem values_read {s : Scanner} (hp : s.pending = .nothing) (cs : List Char) :
    (s.read cs).map Token.value = valuesAt s.dialect s.started s.modes cs := by
  let t : Scanner := ⟨s.dialect, 0, s.modes, .nothing, s.started⟩
  have hs : t.shift s.offset false = s := by
    cases s with
    | mk dialect offset modes pending started =>
      simp only at hp
      simp [t, shift, Pending.shift, hp]
  have hr := @read_shift s.offset false t trivial (fun h => by cases h) cs
  rw [hs] at hr
  rw [hr, List.map_map]
  rfl

theorem valuesAt_nil (dialect : Dialect) (started : Bool) (modes : List Mode) :
    valuesAt dialect started modes [] = [] := rfl

/-- The punctuation that is read as such in the given modes, whatever stands around them. -/
def reads (dialect : Dialect) : List Mode → Punct → Bool
  | [], p => p.char ∈ dialect.root.special
  | .angle :: _, p => p.char ∈ expressionSpecial
  | .paren :: _, p => p.char ∈ expressionSpecial
  | .body marker :: _, p => p = marker.punct || p = .hyphen || (p = .colon && marker = .optional)
  | .defaultStart :: _, _ => false
  | .defaultText :: _, p => p = .question
  | .afterDefault :: _, p => p = .question

theorem stepText_punct {s : Scanner} {p : Punct} (hm : s.modes = []) (hp : p.char ∈ textSpecial)
    (ha : s.afterEscape = false) :
    s.stepText p.char = s.emit p (afterPunct s.modes p) := by
  cases p <;> simp_all [stepText, textSpecial, Punct.char, afterPunct]

theorem stepExpression_punct {s : Scanner} {p : Punct} (he : s.inExpression = true)
    (hp : p.char ∈ expressionSpecial) (ho : p ≠ .openParen) (ha : s.afterEscape = false) :
    s.stepExpression p.char = s.emit p (afterPunct s.modes p) := by
  have hquestion : afterPunct s.modes .question = .body .optional :: s.modes := by
    unfold inExpression at he
    split at he <;> simp_all [afterPunct]
  have hexclamation : afterPunct s.modes .exclamation = .body .imperative :: s.modes := by
    unfold inExpression at he
    split at he <;> simp_all [afterPunct]
  cases p with
  | question => simp [stepExpression, Punct.char, ha, hquestion]
  | exclamation => simp [stepExpression, Punct.char, ha, hexclamation]
  | openParen => exact absurd rfl ho
  | colon => simp [Punct.char, expressionSpecial] at hp
  | hyphen => simp [Punct.char, expressionSpecial] at hp
  | _ => simp [stepExpression, Punct.char, ha, close, afterPunct]

theorem stepBody_punct {s : Scanner} {p : Punct} {marker : Marker} {below : List Mode}
    (hm : s.modes = .body marker :: below) (hr : reads s.dialect s.modes p = true) :
    s.stepBody marker below p.char = s.emit p (afterPunct s.modes p) := by
  have hfresh : s.stepBodyFresh marker below p.char = s.emit p (afterPunct s.modes p) := by
    cases marker <;> cases p <;>
      simp_all [reads, stepBodyFresh, Marker.punct, Punct.char, afterPunct]
  have hdigit : p.char.isDigit = false := by cases p <;> rfl
  have hletter : isIdentContinue p.char = false := by cases p <;> rfl
  unfold stepBody
  split
  next => simp [hdigit, hfresh]
  next => simp [hletter, hfresh]
  next => exact hfresh

theorem step_punct {s : Scanner} {p : Punct} (hr : reads s.dialect s.modes p = true)
    (ho : p ≠ .openParen) (ha : s.inBody = false → s.afterEscape = false) :
    s.step p.char = s.emit p (afterPunct s.modes p) := by
  unfold step
  split
  next hm =>
    have ha := ha (by simp [inBody, hm])
    split
    next hd =>
      exact stepText_punct hm (by simpa [reads, hm, hd, Context.special] using hr) ha
    next hd =>
      exact stepExpression_punct (by simp [inExpression, hm, hd])
        (by simpa [reads, hm, hd, Context.special] using hr) ho ha
  next hm =>
    exact stepExpression_punct (by simp [inExpression, hm]) (by simpa [reads, hm] using hr) ho
      (ha (by simp [inBody, hm]))
  next hm =>
    exact stepExpression_punct (by simp [inExpression, hm]) (by simpa [reads, hm] using hr) ho
      (ha (by simp [inBody, hm]))
  next hm => exact stepBody_punct hm hr
  next hm => simp [reads, hm] at hr
  next hm =>
    have ha := ha (by simp [inBody, hm])
    obtain rfl : p = .question := by simpa [reads, hm] using hr
    simp [stepDefaultText, stepDefault, Punct.char, ha, hm, afterPunct]
  next hm =>
    have ha := ha (by simp [inBody, hm])
    obtain rfl : p = .question := by simpa [reads, hm] using hr
    simp [stepDefault, Punct.char, ha, hm, afterPunct]

/-- Punctuation ends the unfinished token. -/
theorem values_punct {s : Scanner} {p : Punct} (hr : reads s.dialect s.modes p = true)
    (ho : p ≠ .openParen) (ha : s.inBody = false → s.afterEscape = false) (cs : List Char) :
    (s.read (p.char :: cs)).map Token.value = s.flush.map Token.value ++
      .punct p :: valuesAt s.dialect true (afterPunct s.modes p) cs := by
  have hnext := @values_read (s.next (afterPunct s.modes p)) rfl cs
  rw [read_cons, step_punct hr ho ha, emit, List.map_append, List.map_append, hnext,
    List.append_assoc]
  rfl

theorem valuesAt_punct {dialect : Dialect} {started : Bool} {modes : List Mode} {p : Punct}
    (hr : reads dialect modes p = true) (ho : p ≠ .openParen) (cs : List Char) :
    valuesAt dialect started modes (p.char :: cs) =
      .punct p :: valuesAt dialect true (afterPunct modes p) cs :=
  @values_punct ⟨dialect, 0, modes, .nothing, started⟩ p hr ho (fun _ => rfl) cs

theorem valuesAt_defaultStart {dialect : Dialect} {started : Bool} (below : List Mode)
    (cs : List Char) :
    valuesAt dialect started (.defaultStart :: below) ('(' :: cs) =
      .punct .openParen :: valuesAt dialect true (.paren :: .afterDefault :: below) cs := by
  have hnext := @values_read ⟨dialect, 1, .paren :: .afterDefault :: below, .nothing, true⟩ rfl cs
  rw [← hnext, valuesAt, read_cons]
  rfl

/-- Where text is read, and the characters that an escape before them keeps in it. -/
inductive ReadsText (dialect : Dialect) : List Mode → List Char → Prop
  | root : ReadsText dialect [] dialect.root.special
  | angle (below : List Mode) : ReadsText dialect (.angle :: below) expressionSpecial
  | paren (below : List Mode) : ReadsText dialect (.paren :: below) expressionSpecial
  | default (below : List Mode) : ReadsText dialect (.defaultText :: below) defaultSpecial

theorem ReadsText.subset {dialect : Dialect} {modes : List Mode} {special : List Char}
    (h : ReadsText dialect modes special) : ∀ c ∈ special, c ∈ expressionSpecial := by
  cases h with
  | root =>
    cases dialect with
    | standard => exact fun c hc => mem_expressionSpecial_of_textSpecial hc
    | inlineExecution => exact fun c hc => hc
    | singleFunction => exact fun c hc => hc
  | angle below => exact fun c hc => hc
  | paren below => exact fun c hc => hc
  | default below => exact fun c hc => mem_expressionSpecial_of_defaultSpecial hc

theorem stepText_plain {s : Scanner} {c : Char} (hc : c ∉ textSpecial) :
    s.stepText c = s.extend (.plain c) := by
  simp only [textSpecial, List.mem_cons, List.not_mem_nil, or_false, not_or] at hc
  simp [stepText, textSpecial, hc]

theorem stepExpression_plain {s : Scanner} {c : Char} (hc : c ∉ expressionSpecial) :
    s.stepExpression c = s.extend (.plain c) := by
  simp only [expressionSpecial, List.mem_cons, List.not_mem_nil, or_false, not_or] at hc
  simp [stepExpression, expressionSpecial, hc]

theorem ReadsText.step_plain {s : Scanner} {special : List Char}
    (h : ReadsText s.dialect s.modes special) {c : Char} (hc : c ∉ special)
    (ho : s.modes.head? = some .defaultText → c = '(' → s.onlyEscape = false) :
    s.step c = s.extend (.plain c) := by
  generalize hm : s.modes = modes at h
  generalize hd : s.dialect = dialect at h
  cases h with
  | root =>
    cases dialect with
    | standard => simpa [step, hm, hd, Dialect.root] using stepText_plain hc
    | inlineExecution => simpa [step, hm, hd, Dialect.root] using stepExpression_plain hc
    | singleFunction => simpa [step, hm, hd, Dialect.root] using stepExpression_plain hc
  | angle below => simpa [step, hm] using stepExpression_plain hc
  | paren below => simpa [step, hm] using stepExpression_plain hc
  | default below =>
    have hopen : ¬ (c = '(' ∧ s.onlyEscape = true) := by
      rintro ⟨hc, hyes⟩
      simp [ho (by simp [hm]) hc] at hyes
    simp only [defaultSpecial, List.mem_cons, List.not_mem_nil, or_false, not_or] at hc
    simp [step, hm, stepDefaultText, hopen, stepDefault, defaultSpecial, hc]

theorem ReadsText.step_escape {s : Scanner} {special : List Char}
    (h : ReadsText s.dialect s.modes special) {c : Char} (hc : c ∈ special)
    (ha : s.afterEscape = true) : s.step c = s.escape c := by
  generalize hm : s.modes = modes at h
  generalize hd : s.dialect = dialect at h
  cases h with
  | root =>
    cases dialect with
    | standard =>
      have hc : c ∈ textSpecial := hc
      simp [step, hm, hd, Dialect.root, stepText, hc, ha]
    | inlineExecution =>
      have hc : c ∈ expressionSpecial := hc
      simp [step, hm, hd, Dialect.root, stepExpression, hc, ha]
    | singleFunction =>
      have hc : c ∈ expressionSpecial := hc
      simp [step, hm, hd, Dialect.root, stepExpression, hc, ha]
  | angle below => simp [step, hm, stepExpression, hc, ha]
  | paren below => simp [step, hm, stepExpression, hc, ha]
  | default below =>
    have hopen : c ≠ '(' := by
      rintro rfl
      simp [defaultSpecial] at hc
    simp [step, hm, stepDefaultText, hopen, stepDefault, hc, ha]

/-- The pending text, which may not have begun. Its pieces have the newest first. -/
def Holds (s : Scanner) (start : Nat) (pieces : List Piece) : Prop :=
  s.pending = .run start pieces ∨ s.pending = .nothing ∧ start = s.offset ∧ pieces = []

theorem Holds.extend {s : Scanner} {start : Nat} {pieces : List Piece} (h : s.Holds start pieces)
    (p : Piece) :
    s.extend p = ([], { s with offset := s.offset + 1, pending := .run start (p :: pieces) }) := by
  rcases h with hp | ⟨hp, rfl, rfl⟩ <;> simp [Scanner.extend, hp]

theorem Holds.onlyEscape {s : Scanner} {start : Nat} {pieces : List Piece}
    (h : s.Holds start pieces) (hne : pieces.reverse.map Piece.char ≠ [escapeChar]) :
    s.onlyEscape = false := by
  rcases h with hp | ⟨hp, _, _⟩
  · cases hyes : s.onlyEscape with
    | false => rfl
    | true =>
      unfold Scanner.onlyEscape at hyes
      split at hyes
      next start' d hq =>
        obtain rfl : d = escapeChar := eq_of_beq hyes
        rw [hp] at hq
        cases hq
        exact absurd rfl hne
      next => cases hyes
  · simp [Scanner.onlyEscape, hp]

/-- The pieces that a text is read as after its special characters have been escaped. -/
def written (special : List Char) (cs : List Char) : List Piece :=
  cs.map fun c => if c ∈ special then .escaped c else .plain c

theorem map_char_written (special cs : List Char) : (written special cs).map Piece.char = cs := by
  induction cs with
  | nil => rfl
  | cons c cs ih =>
    rw [written, List.map_cons, List.map_cons, ← written, ih]
    split <;> rfl

theorem written_escapesSpecial {special : List Char} (h : ∀ c ∈ special, c ∈ expressionSpecial)
    (cs : List Char) : EscapesSpecial (written special cs) := by
  intro c hc
  obtain ⟨d, _, hd⟩ := List.mem_map.mp hc
  split at hd
  next hs =>
    cases hd
    exact h c hs
  next => cases hd

/-- An escaped text is read back into its characters. The default text must not be, with what
was read before, an escaped parenthesis left as it is. -/
theorem ReadsText.advance_escapeText {s : Scanner} {special : List Char}
    (h : ReadsText s.dialect s.modes special) {start : Nat} {pieces : List Piece}
    (hh : s.Holds start pieces) (cs : List Char)
    (ho : s.modes.head? = some .defaultText →
      ¬ [escapeChar, '('] <+: pieces.reverse.map Piece.char ++ cs) :
    ∃ offset pending, s.advance (escapeText special cs) =
        ([], { s with offset := offset, pending := pending }) ∧
      ({ s with offset := offset, pending := pending } : Scanner).Holds start
        ((written special cs).reverse ++ pieces) := by
  induction cs generalizing s pieces with
  | nil => exact ⟨s.offset, s.pending, rfl, hh⟩
  | cons c cs ih =>
    by_cases hc : c ∈ special
    · have hescape : escapeChar ∉ special := fun hm => escapeChar_not_mem_special (h.subset _ hm)
      let s₁ : Scanner :=
        { s with offset := s.offset + 1, pending := .run start (.plain escapeChar :: pieces) }
      let s₂ : Scanner :=
        { s with offset := s.offset + 2, pending := .run start (.escaped c :: pieces) }
      have h₁ : s.step escapeChar = ([], s₁) := by
        rw [h.step_plain hescape (fun _ he => absurd he (by decide)), hh.extend]
      have h₂ : s₁.step c = ([], s₂) := by
        have hr : ReadsText s₁.dialect s₁.modes special := h
        rw [hr.step_escape hc (by simp [afterEscape, s₁])]
        rfl
      have hr : ReadsText s₂.dialect s₂.modes special := h
      have hguard : s₂.modes.head? = some .defaultText →
          ¬ [escapeChar, '('] <+: (Piece.escaped c :: pieces).reverse.map Piece.char ++ cs := by
        intro hm
        simpa [Piece.char] using ho hm
      obtain ⟨offset, pending, hadv, hholds⟩ := ih hr (.inl rfl) hguard
      refine ⟨offset, pending, ?_, ?_⟩
      · rw [escapeText, if_pos hc]
        simp only [advance, h₁, h₂, List.nil_append]
        exact hadv
      · simpa [written, hc] using hholds
    · let s₁ : Scanner :=
        { s with offset := s.offset + 1, pending := .run start (.plain c :: pieces) }
      have honly : s.modes.head? = some .defaultText → c = '(' → s.onlyEscape = false := by
        intro hm hopen
        apply hh.onlyEscape
        intro hchars
        apply ho hm
        simp [hchars, hopen]
      have h₁ : s.step c = ([], s₁) := by rw [h.step_plain hc honly, hh.extend]
      have hr : ReadsText s₁.dialect s₁.modes special := h
      have hguard : s₁.modes.head? = some .defaultText →
          ¬ [escapeChar, '('] <+: (Piece.plain c :: pieces).reverse.map Piece.char ++ cs := by
        intro hm
        simpa [Piece.char] using ho hm
      obtain ⟨offset, pending, hadv, hholds⟩ := ih hr (.inl rfl) hguard
      refine ⟨offset, pending, ?_, ?_⟩
      · rw [escapeText, if_neg hc]
        simp only [advance, h₁, List.nil_append]
        exact hadv
      · simpa [written, hc] using hholds

theorem Holds.pending_eq {s : Scanner} {start : Nat} {pieces : List Piece}
    (h : s.Holds start pieces) (hne : pieces ≠ []) : s.pending = .run start pieces := by
  rcases h with hp | ⟨_, _, rfl⟩
  · exact hp
  · exact absurd rfl hne

theorem Holds.afterEscape {s : Scanner} {start : Nat} {pieces : List Piece}
    (h : s.Holds start pieces) (hl : (pieces.reverse.map Piece.char).getLast? ≠ some escapeChar) :
    s.afterEscape = false := by
  cases ha : s.afterEscape with
  | false => rfl
  | true =>
    obtain ⟨start', old, hp⟩ := afterEscape_pending ha
    rcases h with hq | ⟨hq, _, _⟩
    · rw [hp] at hq
      cases hq
      simp [Piece.char] at hl
    · rw [hp] at hq
      cases hq

theorem Holds.flush_values {s : Scanner} {start : Nat} {pieces : List Piece}
    (h : s.Holds start pieces) (hne : pieces ≠ [])
    (hn : s.dialect = .singleFunction → s.started = false →
      isIdentifier (pieces.reverse.map Piece.char) = false) :
    s.flush.map Token.value = [.text (piecesText pieces.reverse)] := by
  have hname : s.namesFunction pieces.reverse = false := by
    cases hd : s.namesFunction pieces.reverse with
    | false => rfl
    | true =>
      simp only [namesFunction, Bool.and_eq_true, beq_iff_eq, Bool.not_eq_eq_eq_not,
        Bool.not_true] at hd
      rw [hn hd.1.1 hd.1.2] at hd
      cases hd.2
  simp [flush, h.pending_eq hne, textToken, hname]

/-- The modes around a group of expressions, and how its literals are read. -/
inductive Frame (dialect : Dialect) : List Mode → Context → Prop
  | root : Frame dialect [] dialect.root
  | angle (below : List Mode) : Frame dialect (.angle :: below) .expression
  | paren (below : List Mode) : Frame dialect (.paren :: below) .expression

theorem Frame.readsText {dialect : Dialect} {modes : List Mode} {context : Context}
    (h : Frame dialect modes context) : ReadsText dialect modes context.special := by
  cases h with
  | root => exact .root
  | angle below => exact .angle below
  | paren below => exact .paren below

theorem Frame.head_ne {dialect : Dialect} {modes : List Mode} {context : Context}
    (h : Frame dialect modes context) :
    modes.head? ≠ some .defaultText ∧ modes.head? ≠ some .defaultStart ∧
      atBody modes = false := by
  cases h <;> simp [atBody]

theorem Frame.expression {dialect : Dialect} {modes : List Mode} {context : Context}
    (h : Frame dialect modes context) (he : dialect.root = .expression ∨ modes ≠ []) :
    context = .expression := by
  cases h with
  | root =>
    rcases he with he | he
    · exact he
    · exact absurd rfl he
  | angle below => rfl
  | paren below => rfl

theorem Frame.reads {dialect : Dialect} {modes : List Mode} {context : Context}
    (h : Frame dialect modes context) {p : Punct} (hp : p.char ∈ context.special) :
    reads dialect modes p = true := by
  cases h with
  | root => simpa [Scanner.reads] using hp
  | angle below => simpa [Scanner.reads, Context.special] using hp
  | paren below => simpa [Scanner.reads, Context.special] using hp

theorem Frame.reads_of_text {dialect : Dialect} {modes : List Mode} {context : Context}
    (h : Frame dialect modes context) {p : Punct} (hp : p.char ∈ textSpecial) :
    Scanner.reads dialect modes p = true := by
  apply h.reads
  cases context with
  | text => exact hp
  | expression => exact mem_expressionSpecial_of_textSpecial hp

theorem Frame.afterPunct_marker {dialect : Dialect} {modes : List Mode} {context : Context}
    (h : Frame dialect modes context) (marker : Marker) :
    afterPunct modes marker.punct = .body marker :: modes := by
  cases marker <;> cases h <;> rfl

theorem step_openParen {s : Scanner} (hf : Frame s.dialect s.modes .expression)
    (ha : s.afterEscape = false) :
    s.step '(' = (s.flushBeforeParen ++ [s.punctToken .openParen], s.next (.paren :: s.modes)) := by
  have hstep : s.step '(' = s.stepExpression '(' := by
    generalize hm : s.modes = modes at hf
    generalize hc : Context.expression = context at hf
    cases hf with
    | root => simp [step, hm, ← hc]
    | angle below => simp [step, hm]
    | paren below => simp [step, hm]
  rw [hstep]
  simp [stepExpression, ha]

theorem escapeText_of_isIdentifier {special : List Char}
    (h : ∀ c ∈ special, c ∈ expressionSpecial) {name : List Char}
    (hn : ∀ c ∈ name, isIdentContinue c = true) :
    escapeText special name = name ∧ written special name = name.map Piece.plain := by
  induction name with
  | nil => exact ⟨rfl, rfl⟩
  | cons c cs ih =>
    have hc : c ∉ special := by
      intro hm
      have hno := not_isIdentContinue_of_special (h c hm)
      simp [hn c (List.mem_cons_self ..)] at hno
    obtain ⟨htext, hpieces⟩ := ih fun d hd => hn d (List.mem_cons_of_mem _ hd)
    refine ⟨by rw [escapeText, if_neg hc, htext], ?_⟩
    rw [written, List.map_cons, if_neg hc, ← written, hpieces, List.map_cons]

/-- The name of a call is read apart from the text in front of it. -/
theorem Frame.values_call {s : Scanner} (hf : Frame s.dialect s.modes .expression) {start : Nat}
    {pieces : List Piece} (hh : s.Holds start pieces) (he : EscapesSpecial pieces)
    (hend : endsInName (pieces.reverse.map Piece.char) = false) {name : List Char}
    (hn : isIdentifier name = true) (cs : List Char) :
    (s.read (name ++ '(' :: cs)).map Token.value =
      (if pieces.reverse.isEmpty then [] else [.text (piecesText pieces.reverse)]) ++
        .identifier (String.ofList name) :: .punct .openParen ::
          valuesAt s.dialect true (.paren :: s.modes) cs := by
  have hcontinue := isIdentContinue_of_mem_identifier hn
  obtain ⟨htext, hpieces⟩ := escapeText_of_isIdentifier hf.readsText.subset hcontinue
  obtain ⟨offset, pending, hadv, hholds⟩ :=
    hf.readsText.advance_escapeText hh name fun hm => absurd hm hf.head_ne.1
  rw [htext] at hadv
  rw [hpieces] at hholds
  obtain ⟨c, rest, hname⟩ : ∃ c rest, name = rest ++ [c] := by
    rcases List.eq_nil_or_concat name with rfl | ⟨rest, c, hname⟩
    · simp [isIdentifier] at hn
    · exact ⟨c, rest, by simpa using hname⟩
  let t : Scanner := { s with offset := offset, pending := pending }
  have ht : t.pending = .run start ((name.map Piece.plain).reverse ++ pieces) :=
    Holds.pending_eq hholds (by simp [hname])
  have ha : t.afterEscape = false := by
    apply Holds.afterEscape hholds
    rw [List.reverse_append, List.reverse_reverse, List.map_append, List.map_map, hname]
    simp only [List.map_append, List.map_singleton, ← List.append_assoc, List.getLast?_concat]
    intro hc
    have hc : c = escapeChar := by simpa [Piece.char] using hc
    have hin := hcontinue c (by simp [hname])
    rw [hc] at hin
    cases hin
  have hopen : t.step '(' = (t.flushBeforeParen ++ [t.punctToken .openParen],
      t.next (.paren :: t.modes)) := step_openParen hf ha
  have hflush : t.flushBeforeParen = callTokens start (pieces.reverse ++ name.map Piece.plain) := by
    simp [flushBeforeParen, ht]
  have hnext := @values_read (t.next (.paren :: t.modes)) rfl cs
  rw [read_append, hadv, List.nil_append, read_cons, hopen, List.map_append, hnext,
    List.map_append, hflush, callTokens_append start he.reverse hend hn]
  simp [punctToken, next, t]

theorem Frame.valuesAt_call {dialect : Dialect} {started : Bool} {modes : List Mode}
    (hf : Frame dialect modes .expression) {name : String} (hn : isIdentifier name.toList = true)
    (cs : List Char) :
    valuesAt dialect started modes (name.toList ++ '(' :: cs) =
      .identifier name :: .punct .openParen :: valuesAt dialect true (.paren :: modes) cs := by
  have h := @Frame.values_call ⟨dialect, 0, modes, .nothing, started⟩ hf 0 []
    (.inr ⟨rfl, rfl, rfl⟩) (by simp [EscapesSpecial]) rfl name.toList hn cs
  rw [String.ofList_toList] at h
  exact h

/-- The characters that go on with the given token contents, as far as a text in front of them
can tell. -/
def Meets (dialect : Dialect) (modes : List Mode) (context : Context) :
    List TokenValue → List Char → Prop
  | [], cs => cs = []
  | .punct p :: _, cs => reads dialect modes p = true ∧ p ≠ .openParen ∧ cs.head? = some p.char
  | .identifier name :: _, cs =>
    context = .expression → ∃ rest, cs = name.toList ++ '(' :: rest
  | _, _ => True

theorem Frame.valuesAt_text {dialect : Dialect} {started : Bool} {modes : List Mode}
    {context : Context} (hf : Frame dialect modes context) {s : String} {next : List TokenValue}
    {cs : List Char} (hs : Stream dialect started modes (.text s :: next))
    (hm : Meets dialect modes context next cs) :
    valuesAt dialect started modes (escapeText context.special s.toList ++ cs) =
      .text s :: valuesAt dialect true modes cs := by
  cases hs with
  | text happly hnext =>
    have hapart := happly hf.head_ne.2.2
    have hholds₀ : (⟨dialect, 0, modes, .nothing, started⟩ : Scanner).Holds 0 [] :=
      .inr ⟨rfl, rfl, rfl⟩
    obtain ⟨offset, pending, hadv, hholds⟩ := hf.readsText.advance_escapeText hholds₀ s.toList
      fun hd => absurd hd hf.head_ne.1
    let t : Scanner := ⟨dialect, offset, modes, pending, started⟩
    rw [List.append_nil] at hholds
    let pieces := (written context.special s.toList).reverse
    have hchars : pieces.reverse.map Piece.char = s.toList := by
      simp only [pieces, List.reverse_reverse, map_char_written]
    have htext : piecesText pieces.reverse = s := by rw [piecesText, hchars, String.ofList_toList]
    have hne : pieces ≠ [] := by
      intro hn
      rw [hn] at hchars
      exact hapart.nonempty hchars.symm
    have hesc : EscapesSpecial pieces := (written_escapesSpecial hf.readsText.subset _).reverse
    have hflush : t.flush.map Token.value = [.text s] := by
      have hflush := Holds.flush_values hholds hne
        (fun hd hst => by rw [hchars]; exact hapart.unnamed hd hst)
      rwa [htext] at hflush
    have hread : valuesAt dialect started modes (escapeText context.special s.toList ++ cs) =
        (t.read cs).map Token.value := by
      rw [valuesAt, read_append, hadv]
      rfl
    rw [hread]
    have hprecedes := hapart.precedes
    cases next with
    | nil =>
      obtain rfl : cs = [] := hm
      rw [read_nil, hflush, valuesAt_nil]
    | cons v next =>
      cases v with
      | punct p =>
        obtain ⟨hr, ho, hhead⟩ := hm
        obtain ⟨rest, rfl⟩ := List.head?_eq_some_iff.mp hhead
        have ha : t.afterEscape = false := Holds.afterEscape hholds (by rw [hchars]; exact hprecedes)
        rw [valuesAt_punct hr ho, @values_punct t p hr ho (fun _ => ha), hflush]
        rfl
      | identifier name =>
        cases hnext with
        | identifier hname hroot _ =>
          have hexpr := hf.expression hroot
          subst hexpr
          obtain ⟨rest, rfl⟩ := hm rfl
          rw [hf.valuesAt_call hname, @Frame.values_call t hf 0 pieces hholds hesc
            (by rw [hchars]; exact hprecedes) _ hname, String.ofList_toList, htext]
          simp [hne, t]
      | text s' => exact absurd hprecedes id
      | integer n => exact absurd hprecedes id

theorem advance_defaultStart {dialect : Dialect} {started : Bool} {below : List Mode} {c : Char}
    (hc : c ≠ '(') (cs : List Char) :
    advance ⟨dialect, 0, .defaultStart :: below, .nothing, started⟩ (c :: cs) =
      advance ⟨dialect, 0, .defaultText :: below, .nothing, started⟩ (c :: cs) := by
  simp only [advance, step, stepDefaultStart, stepDefaultText, hc, false_and, if_false]

theorem advance_escapeDefault {dialect : Dialect} {started : Bool} {below : List Mode}
    {cs : List Char} (hne : cs ≠ []) (ho : ¬ [escapeChar, '('] <+: cs) :
    ∃ offset pending pieces,
      advance ⟨dialect, 0, .defaultStart :: below, .nothing, started⟩ (escapeDefault cs) =
        ([], ⟨dialect, offset, .defaultText :: below, pending, started⟩) ∧
      Holds ⟨dialect, offset, .defaultText :: below, pending, started⟩ 0 pieces ∧
      pieces.reverse.map Piece.char = cs := by
  have hr : ReadsText dialect (.defaultText :: below) defaultSpecial := .default below
  obtain ⟨c, rest, rfl⟩ := List.exists_cons_of_ne_nil hne
  by_cases hc : c = '('
  · subst hc
    let s : Scanner := ⟨dialect, 2, .defaultText :: below, .run 0 [.escaped '('], started⟩
    obtain ⟨offset, pending, hadv, hholds⟩ :=
      @ReadsText.advance_escapeText s _ hr 0 [.escaped '('] (.inl rfl) rest
        (fun _ => by simp [Piece.char, escapeChar])
    refine ⟨offset, pending, _, ?_, hholds, ?_⟩
    · have hfirst : advance ⟨dialect, 0, .defaultStart :: below, .nothing, started⟩
          [escapeChar, '('] = ([], s) := rfl
      have hsplit : escapeDefault ('(' :: rest) =
          [escapeChar, '('] ++ escapeText defaultSpecial rest := rfl
      rw [hsplit, advance_append, hfirst, hadv]
      rfl
    · simp [map_char_written, Piece.char]
  · obtain ⟨offset, pending, hadv, hholds⟩ :=
      @ReadsText.advance_escapeText ⟨dialect, 0, .defaultText :: below, .nothing, started⟩ _ hr 0 []
        (.inr ⟨rfl, rfl, rfl⟩) (c :: rest) (fun _ => ho)
    refine ⟨offset, pending, _, ?_, hholds, ?_⟩
    · have hdefault : escapeDefault (c :: rest) = escapeText defaultSpecial (c :: rest) := by
        unfold escapeDefault
        split
        next heq =>
          cases heq
          exact absurd rfl hc
        next => rfl
      rw [hdefault, ← hadv, escapeText]
      split
      next => exact advance_defaultStart (by decide) _
      next => exact advance_defaultStart hc _
    · simp [map_char_written]

theorem valuesAt_default {dialect : Dialect} {started : Bool} {below : List Mode} {s : String}
    {next : List TokenValue}
    (hs : Stream dialect started (.defaultStart :: below) (.text s :: .punct .question :: next))
    (cs : List Char) :
    valuesAt dialect started (.defaultStart :: below) (escapeDefault s.toList ++ '?' :: cs) =
      .text s :: .punct .question :: valuesAt dialect true below cs := by
  cases hs with
  | text happly _ =>
    have hapart := happly rfl
    obtain ⟨offset, pending, pieces, hadv, hholds, hchars⟩ :=
      @advance_escapeDefault dialect started below _ hapart.nonempty (hapart.unopened rfl)
    let t : Scanner := ⟨dialect, offset, .defaultText :: below, pending, started⟩
    have hne : pieces ≠ [] := by
      rintro rfl
      exact hapart.nonempty hchars.symm
    have hflush : t.flush.map Token.value = [.text s] := by
      have hflush := Holds.flush_values hholds hne
        (fun hd hst => by rw [hchars]; exact hapart.unnamed hd hst)
      rwa [piecesText, hchars, String.ofList_toList] at hflush
    have ha : t.afterEscape = false :=
      Holds.afterEscape hholds (by rw [hchars]; exact hapart.precedes)
    have hq := @values_punct t .question rfl (by simp) (fun _ => ha) cs
    rw [hflush] at hq
    rw [valuesAt, read_append, hadv]
    exact hq

theorem isBlank_of_isDigit {c : Char} (h : c.isDigit = true) : isBlank c = false := by
  simp only [Char.isDigit, Bool.and_eq_true, decide_eq_true_eq, ge_iff_le,
    UInt32.le_iff_toNat_le] at h
  have hlow : 48 ≤ c.toNat := h.1
  have hhigh : c.toNat ≤ 57 := h.2
  simp only [isBlank, Bool.or_eq_false_iff, Bool.and_eq_false_iff, decide_eq_false_iff_not,
    beq_eq_false_iff_ne, Nat.not_le]
  omega

theorem step_digit {s : Scanner} {marker : Marker} {below : List Mode}
    (hm : s.modes = .body marker :: below) (hp : s.pending = .nothing) {c : Char}
    (hc : c.isDigit = true) :
    s.step c = ([], { s.next s.modes with pending := .number s.offset [c] }) := by
  have hne : ∀ d : Char, d.isDigit = false → c ≠ d := by
    rintro d hd rfl
    simp [hc] at hd
  have hmarker : c ≠ marker.punct.char := hne _ (by cases marker <;> rfl)
  have hflush : s.flush = [] := by simp [flush, hp]
  simp only [step, hm, stepBody, hp, stepBodyFresh]
  rw [if_neg hmarker, if_neg (hne '-' rfl), if_neg (fun h => hne ':' rfl h.1),
    if_neg (fun h => hne '>' rfl h.1), if_neg (fun h => hne ')' rfl h.1), isBlank_of_isDigit hc,
    if_neg (by simp), if_pos hc, hflush]

theorem advance_digits {s : Scanner} {marker : Marker} {below : List Mode}
    (hm : s.modes = .body marker :: below) {start : Nat} {digits : List Char}
    (hp : s.pending = .number start digits) {cs : List Char} (hc : ∀ c ∈ cs, c.isDigit = true) :
    ∃ offset, s.advance cs =
      ([], { s with offset := offset, pending := .number start (cs.reverse ++ digits) }) := by
  induction cs generalizing s digits with
  | nil => exact ⟨s.offset, by simp [advance, ← hp]⟩
  | cons c cs ih =>
    let t : Scanner := { s with offset := s.offset + 1, pending := .number start (c :: digits) }
    have hstep : s.step c = ([], t) := by
      simp [step, hm, stepBody, hp, hc c (List.mem_cons_self ..), t]
    obtain ⟨offset, hadv⟩ := @ih t hm _ rfl fun d hd => hc d (List.mem_cons_of_mem _ hd)
    refine ⟨offset, ?_⟩
    simp only [advance, hstep, hadv, List.nil_append]
    simp [t]

theorem valuesAt_integer {dialect : Dialect} {started : Bool} {marker : Marker}
    {below : List Mode} {n : Nat} (hn : n < integerLimit) {p : Punct}
    (hr : reads dialect (.body marker :: below) p = true) (ho : p ≠ .openParen) (cs : List Char) :
    valuesAt dialect started (.body marker :: below) (decimal n ++ p.char :: cs) =
      .integer n :: valuesAt dialect true (.body marker :: below) (p.char :: cs) := by
  have hdigits := List.all_eq_true.mp (decimal_all_isDigit n)
  have hvalue := decimalValue_decimal n
  obtain ⟨c, rest, hd⟩ := List.exists_cons_of_ne_nil (decimal_ne_nil n)
  rw [hd] at hdigits hvalue
  let s : Scanner := ⟨dialect, 0, .body marker :: below, .nothing, started⟩
  let t : Scanner := ⟨dialect, 1, .body marker :: below, .number 0 [c], true⟩
  have hfirst : s.step c = ([], t) := step_digit rfl rfl (hdigits c (List.mem_cons_self ..))
  obtain ⟨offset, hadv⟩ := @advance_digits t marker below rfl 0 [c] rfl rest
    fun d hd => hdigits d (List.mem_cons_of_mem _ hd)
  let u : Scanner := { t with offset := offset, pending := .number 0 (rest.reverse ++ [c]) }
  have hflush : u.flush.map Token.value = [.integer n] := by
    simp [flush, u, numberValue, hvalue, hn]
  have hpunct := @values_punct u p hr ho (by simp [inBody, u, t]) cs
  rw [hflush] at hpunct
  rw [hd, valuesAt_punct hr ho, valuesAt, List.cons_append, read_cons, hfirst, List.nil_append,
    read_append, hadv]
  exact hpunct

theorem valuesAt_openBound {dialect : Dialect} {started : Bool} {marker : Marker}
    {below : List Mode} {p : Punct} (hr : reads dialect (.body marker :: below) p = true)
    (ho : p ≠ .openParen) (cs : List Char) :
    valuesAt dialect started (.body marker :: below) (openBound.toList ++ p.char :: cs) =
      .identifier openBound :: valuesAt dialect true (.body marker :: below) (p.char :: cs) := by
  let s : Scanner := ⟨dialect, 0, .body marker :: below, .nothing, started⟩
  let t : Scanner := ⟨dialect, 1, .body marker :: below, .word 0 ['N'], true⟩
  have hfirst : s.step 'N' = ([], t) := by cases marker <;> rfl
  have hpunct := @values_punct t p hr ho (by simp [inBody, t]) cs
  have hbound : openBound.toList = ['N'] := rfl
  rw [hbound, List.singleton_append, valuesAt_punct hr ho, valuesAt, read_cons, hfirst,
    List.nil_append]
  exact hpunct

end Scanner

end CommandTemplate
