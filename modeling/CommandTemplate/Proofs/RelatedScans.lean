import CommandTemplate.Compilation
import CommandTemplate.Proofs.TokenStream

namespace CommandTemplate

open Scanner

theorem Scanner.flush_length_le (s : Scanner) : s.flush.length ≤ 1 := by
  unfold flush
  split <;> simp

/-- What is written behind a text can only change the last of its tokens. -/
theorem scan_dropLast_prefix (dialect : Dialect) (a b : String) :
    (scan dialect a).dropLast <+: scan dialect (a ++ b) := by
  let read := (Scanner.initial dialect).advance a.toList
  have hlonger : scan dialect (a ++ b) = read.1 ++ read.2.read b.toList := by
    rw [scan_eq_read, String.toList_append, read_append]
  -- All tokens of the text are finished but the one that its end cuts short.
  have hfinished : (read.1 ++ read.2.flush).dropLast <+: read.1 := by
    have hlength := read.2.flush_length_le
    match hf : read.2.flush with
    | [] =>
      rw [List.append_nil]
      exact List.dropLast_prefix _
    | [t] => exact ⟨[], by rw [List.dropLast_concat, List.append_nil]⟩
    | _ :: _ :: _ => simp [hf] at hlength
  rw [hlonger]
  exact hfinished.trans (List.prefix_append _ _)

/-- Tokens with the word at their head, if there is one, as a name. -/
def nameLeadingWord : List Token → List Token
  | ⟨.text s, start, stop⟩ :: ts =>
    ⟨if isIdentifier s.toList then .identifier s else .text s, start, stop⟩ :: ts
  | ts => ts

/-- Whether the first token is a text that could be a name. -/
def leadsWithWord : List Token → Bool
  | ⟨.text s, _, _⟩ :: _ => isIdentifier s.toList
  | _ => false

theorem nameLeadingWord_of_not_word {ts : List Token} (h : leadsWithWord ts = false) :
    nameLeadingWord ts = ts := by
  unfold nameLeadingWord
  split
  next s start stop ts =>
    have hs : isIdentifier s.toList = false := h
    rw [hs]
    rfl
  next => rfl

theorem nameLeadingWord_append {ts : List Token} (hne : ts ≠ []) (us : List Token) :
    nameLeadingWord (ts ++ us) = nameLeadingWord ts ++ us := by
  obtain ⟨⟨v, start, stop⟩, ts, rfl⟩ := List.exists_cons_of_ne_nil hne
  cases v <;> rfl

namespace Scanner

/-- The same state in the dialect for single functions. -/
def forFunction (s : Scanner) : Scanner :=
  { s with dialect := .singleFunction }

/-- How the dialect for single functions has the tokens from a state on. -/
def renamed (s : Scanner) (ts : List Token) : List Token :=
  if s.started then ts else nameLeadingWord ts

/-- What a step does, in the dialect for single functions. -/
def renamedStep (s : Scanner) (r : List Token × Scanner) : List Token × Scanner :=
  (s.renamed r.1, r.2.forFunction)

/-- The states of the dialect for inline execution: brackets stand behind a token. -/
structure IsInline (s : Scanner) : Prop where
  dialect : s.dialect = .inlineExecution
  tracks : s.Tracks
  opens : s.started = false → s.modes = []

section

variable {s : Scanner}

theorem renamed_nil : s.renamed [] = [] := by
  unfold renamed
  split <;> rfl

theorem renamed_of_started (h : s.started = true) (ts : List Token) : s.renamed ts = ts := by
  simp [renamed, h]

/-- Behind a token the two dialects finish the same tokens. -/
theorem eq_renamedStep (h : s.started = true) {out : List Token} {t u : Scanner}
    (ht : u = t.forFunction) : (out, u) = s.renamedStep (out, t) := by
  rw [renamedStep, renamed_of_started h, ht]

theorem renamed_concat {ts : List Token} {t : Token} (ht : leadsWithWord [t] = false) :
    s.renamed (ts ++ [t]) = s.renamed ts ++ [t] := by
  unfold renamed
  split
  next => rfl
  next =>
    cases ts with
    | nil => exact nameLeadingWord_of_not_word ht
    | cons u ts => exact nameLeadingWord_append (List.cons_ne_nil u ts) [t]

theorem flush_of_started (h : s.started = true) : s.forFunction.flush = s.flush := by
  have hnames : ∀ pieces, s.forFunction.namesFunction pieces = s.namesFunction pieces := by
    intro pieces
    simp [namesFunction, forFunction, h]
  cases hp : s.pending with
  | run start pieces =>
    have hq : s.forFunction.pending = .run start pieces := hp
    simp only [flush, hp, hq, textToken, hnames]
  | _ => simp [flush, forFunction, hp]

/-- The text in front of the name of a call is not a word. -/
theorem callTokens_not_word (start : Nat) {pieces : List Piece} (h : EscapesSpecial pieces) :
    leadsWithWord (callTokens start pieces) = false := by
  obtain ⟨front, hsplit, hcall⟩ := callTokens_eq start pieces
  have hfront := front_not_endsInName h hsplit
  rw [hcall]
  cases front with
  | nil => cases trailingName pieces <;> rfl
  | cons p front =>
    show isIdentifier (piecesText (p :: front)).toList = false
    rw [piecesText, String.toList_ofList]
    cases hi : isIdentifier ((p :: front).map Piece.char) with
    | false => rfl
    | true =>
      rw [endsInName_of_isIdentifier hi] at hfront
      cases hfront

namespace IsInline

theorem pending_cases (h : s.IsInline) (hs : s.started = false) :
    s.pending = .nothing ∨ ∃ start pieces, s.pending = .run start pieces :=
  h.tracks.fits.nothing_or_run (by simp [inBody, h.opens hs])

theorem started_of_mode (h : s.IsInline) {mode : Mode} {below : List Mode}
    (hm : s.modes = mode :: below) : s.started = true := by
  cases hs : s.started with
  | true => rfl
  | false => simp [h.opens hs] at hm

theorem flush_eq (h : s.IsInline) : s.forFunction.flush = s.renamed s.flush := by
  cases hs : s.started with
  | true => rw [renamed_of_started hs, flush_of_started hs]
  | false =>
    rcases h.pending_cases hs with hp | ⟨start, pieces, hp⟩
    · simp [flush, forFunction, hp, renamed_nil]
    · simp [flush, forFunction, hp, textToken, namesFunction, h.dialect, hs, renamed,
        nameLeadingWord, piecesText]

theorem flushBeforeParen_eq (h : s.IsInline) :
    s.forFunction.flushBeforeParen = s.renamed s.flushBeforeParen := by
  cases hp : s.pending with
  | run start pieces =>
    have hcall := callTokens_not_word start (h.tracks.escapes hp).reverse
    simp only [flushBeforeParen, forFunction, hp, renamed, nameLeadingWord_of_not_word hcall,
      ite_self]
  | _ => simpa [flushBeforeParen, forFunction, hp] using h.flush_eq

end IsInline

theorem emit_forFunction (h : s.forFunction.flush = s.renamed s.flush) (p : Punct)
    (modes : List Mode) : s.forFunction.emit p modes = s.renamedStep (s.emit p modes) := by
  rw [renamedStep, emit, emit, renamed_concat rfl, h]
  rfl

theorem close_forFunction (h : s.forFunction.flush = s.renamed s.flush) (p : Punct) (mode : Mode) :
    s.forFunction.close p mode = s.renamedStep (s.close p mode) :=
  emit_forFunction h p _

theorem extend_forFunction (piece : Piece) :
    s.forFunction.extend piece = s.renamedStep (s.extend piece) := by
  cases hp : s.pending <;> simp [extend, forFunction, renamedStep, renamed_nil, hp]

theorem escape_forFunction (c : Char) :
    s.forFunction.escape c = s.renamedStep (s.escape c) := by
  rw [renamedStep, escape, escape, renamed_nil]
  rfl

theorem stepExpression_forFunction (h : s.IsInline) (c : Char) :
    s.forFunction.stepExpression c = s.renamedStep (s.stepExpression c) := by
  have hflush := h.flush_eq
  have hescape : s.forFunction.afterEscape = s.afterEscape := rfl
  unfold stepExpression
  rw [hescape]
  split
  next => exact escape_forFunction c
  next =>
    split
    next => exact emit_forFunction hflush _ _
    next => exact close_forFunction hflush _ _
    next =>
      rw [renamedStep, renamed_concat rfl, h.flushBeforeParen_eq]
      rfl
    next => exact close_forFunction hflush _ _
    next => exact emit_forFunction hflush _ _
    next => exact emit_forFunction hflush _ _
    next => exact emit_forFunction hflush _ _
    next => exact extend_forFunction _

/-- Behind a token the two dialects agree on what is pending. -/
theorem flush_renamed (hs : s.started = true) : s.forFunction.flush = s.renamed s.flush := by
  rw [renamed_of_started hs, flush_of_started hs]

theorem stepBodyFresh_forFunction (hs : s.started = true) (marker : Marker) (below : List Mode)
    (c : Char) :
    s.forFunction.stepBodyFresh marker below c =
      s.renamedStep (s.stepBodyFresh marker below c) := by
  have hmodes : s.forFunction.modes = s.modes := rfl
  have hoffset : s.forFunction.offset = s.offset := rfl
  have hflush := flush_renamed hs
  have hblank : (s.flush, s.forFunction.next s.modes) =
      s.renamedStep (s.flush, s.next s.modes) := eq_renamedStep hs rfl
  have hnumber : (s.flush,
      { s.forFunction.next s.modes with pending := .number s.offset [c] }) =
      s.renamedStep (s.flush, { s.next s.modes with pending := .number s.offset [c] }) :=
    eq_renamedStep hs rfl
  have hword : (s.flush, { s.forFunction.next s.modes with pending := .word s.offset [c] }) =
      s.renamedStep (s.flush, { s.next s.modes with pending := .word s.offset [c] }) :=
    eq_renamedStep hs rfl
  have hodd : (s.flush ++ [⟨.text (String.singleton c), s.offset, s.offset + 1⟩],
        s.forFunction.next s.modes) =
      s.renamedStep (s.flush ++ [⟨.text (String.singleton c), s.offset, s.offset + 1⟩],
        s.next s.modes) := eq_renamedStep hs rfl
  simp only [stepBodyFresh, hmodes, hoffset, emit_forFunction hflush, close_forFunction hflush,
    flush_of_started hs, hblank, hnumber, hword, hodd, ← apply_ite s.renamedStep]

theorem stepBody_forFunction (hs : s.started = true) (marker : Marker) (below : List Mode)
    (c : Char) :
    s.forFunction.stepBody marker below c = s.renamedStep (s.stepBody marker below c) := by
  have hpending : s.forFunction.pending = s.pending := rfl
  have hfresh := stepBodyFresh_forFunction hs marker below c
  unfold stepBody
  rw [hpending]
  split
  next =>
    split
    next => exact eq_renamedStep hs rfl
    next => exact hfresh
  next =>
    split
    next => exact eq_renamedStep hs rfl
    next => exact hfresh
  next => exact hfresh

theorem stepDefault_forFunction (hs : s.started = true) (below : List Mode) (c : Char) :
    s.forFunction.stepDefault below c = s.renamedStep (s.stepDefault below c) := by
  have hmodes : s.forFunction.modes = s.modes := rfl
  have hescape : s.forFunction.afterEscape = s.afterEscape := rfl
  unfold stepDefault
  rw [hmodes, hescape]
  split
  next => exact escape_forFunction c
  split
  next => exact emit_forFunction (flush_renamed hs) _ _
  split
  next => exact close_forFunction (flush_renamed hs) _ _
  split
  next => exact close_forFunction (flush_renamed hs) _ _
  next => exact extend_forFunction _

theorem stepDefaultStart_forFunction (hs : s.started = true) (below : List Mode) (c : Char) :
    s.forFunction.stepDefaultStart below c = s.renamedStep (s.stepDefaultStart below c) := by
  unfold stepDefaultStart
  split
  next => exact emit_forFunction (flush_renamed hs) _ _
  next =>
    exact @stepDefault_forFunction { s with modes := .defaultText :: below } hs below c

theorem stepDefaultText_forFunction (hs : s.started = true) (below : List Mode) (c : Char) :
    s.forFunction.stepDefaultText below c = s.renamedStep (s.stepDefaultText below c) := by
  have honly : s.forFunction.onlyEscape = s.onlyEscape := rfl
  unfold stepDefaultText
  rw [honly]
  split
  next => exact escape_forFunction c
  next => exact stepDefault_forFunction hs below c

/-- The two inline dialects take the same steps, up to the name of a leading word. -/
theorem IsInline.step_eq (h : s.IsInline) (c : Char) :
    s.forFunction.step c = s.renamedStep (s.step c) := by
  have hmodes : s.forFunction.modes = s.modes := rfl
  unfold step
  rw [hmodes]
  split
  next =>
    rw [h.dialect]
    exact stepExpression_forFunction h c
  next => exact stepExpression_forFunction h c
  next => exact stepExpression_forFunction h c
  next hm => exact stepBody_forFunction (h.started_of_mode hm) _ _ c
  next hm => exact stepDefaultStart_forFunction (h.started_of_mode hm) _ c
  next hm => exact stepDefaultText_forFunction (h.started_of_mode hm) _ c
  next hm => exact stepDefault_forFunction (h.started_of_mode hm) _ c

/-- A step either finishes a token or leaves it open whether there has been one. -/
theorem IsInline.started_step (h : s.IsInline) {t : Scanner} {c : Char} {out : List Token}
    (hmove : Move s c out t) :
    (s.started = true ∨ out ≠ []) ∧ t.started = true ∨
      s.started = false ∧ out = [] ∧ t.started = false ∧ t.modes = [] := by
  cases hs : s.started with
  | true =>
    refine .inl ⟨.inl rfl, ?_⟩
    cases hmove with
    | plain hb hc ho => rcases s.entered_eq with he | ⟨_, _, he⟩ <;> simpa [he, extend] using hs
    | escape hb ha hc ho => exact hs
    | moreDigits start digits hp hc => exact hs
    | moreLetters start letters hp hc => exact hs
    | _ => rfl
  | false =>
    have hm := h.opens hs
    have hbody : s.inBody ≠ true := by simp [inBody, hm]
    cases hmove with
    | plain hb hc ho =>
      have he : s.entered = s := by simp [entered, hm]
      rw [he]
      exact .inr ⟨rfl, rfl, hs, hm⟩
    | escape hb ha hc ho => exact .inr ⟨rfl, rfl, hs, hm⟩
    | punct p hc he ho => exact .inl ⟨.inr (by simp), rfl⟩
    | call hc hi ha => exact .inl ⟨.inr (by simp), rfl⟩
    | moreDigits start digits hp hc =>
      rcases h.pending_cases hs with hq | ⟨_, _, hq⟩ <;> simp [hp] at hq
    | moreLetters start letters hp hc =>
      rcases h.pending_cases hs with hq | ⟨_, _, hq⟩ <;> simp [hp] at hq
    | blank hb hc => exact absurd hb hbody
    | number hb hc => exact absurd hb hbody
    | word hb hc => exact absurd hb hbody
    | odd hb => exact absurd hb hbody

theorem IsInline.move (h : s.IsInline) {t : Scanner} {c : Char} {out : List Token}
    (hmove : Move s c out t) : t.IsInline := by
  refine ⟨hmove.dialect_eq.trans h.dialect, h.tracks.move hmove, ?_⟩
  intro ht
  rcases h.started_step hmove with ⟨_, hstarted⟩ | ⟨_, _, _, hm⟩
  · simp [hstarted] at ht
  · exact hm

/-- In the dialect for single functions all tokens are the same, up to the name of a leading
word. -/
theorem IsInline.read_eq (h : s.IsInline) (cs : List Char) :
    s.forFunction.read cs = s.renamed (s.read cs) := by
  induction cs generalizing s with
  | nil => exact h.flush_eq
  | cons c cs ih =>
    have hmove := step_move h.tracks.fits c
    have hrest := ih (h.move hmove)
    have hstep := h.step_eq c
    rw [read_cons, read_cons, hstep, renamedStep, hrest]
    rcases h.started_step hmove with ⟨hbefore, hafter⟩ | ⟨hbefore, hout, hafter, _⟩
    · rw [renamed_of_started hafter]
      rcases hbefore with hs | hne
      · rw [renamed_of_started hs, renamed_of_started hs]
      · unfold renamed
        split
        next => rfl
        next => exact (nameLeadingWord_append hne _).symm
    · rw [hout, renamed_nil, List.nil_append, List.nil_append]
      simp [renamed, hbefore, hafter]

end

end Scanner

/-- The dialects for single functions and for inline execution differ in a leading word only, which
the former takes for a name. Without one, compiling comes to the same in both. -/
theorem scan_singleFunction (text : String) :
    scan .singleFunction text = nameLeadingWord (scan .inlineExecution text) ∧
      (leadsWithWord (scan .inlineExecution text) = false → ∀ allow,
        compile ⟨.singleFunction, allow⟩ text = compile ⟨.inlineExecution, allow⟩ text) := by
  have hinline : (Scanner.initial .inlineExecution).IsInline :=
    ⟨rfl, .ofNothing rfl, fun _ => rfl⟩
  have hscan : scan .singleFunction text = nameLeadingWord (scan .inlineExecution text) :=
    hinline.read_eq text.toList
  refine ⟨hscan, ?_⟩
  intro hword allow
  rw [nameLeadingWord_of_not_word hword] at hscan
  simp only [compile, hscan]

theorem scan_singleFunction_call :
    leadsWithWord (scan .inlineExecution "run(!1!, b) it") = false ∧
      scan .singleFunction "run(!1!, b) it" =
        nameLeadingWord (scan .inlineExecution "run(!1!, b) it") ∧
      compile ⟨.singleFunction, true⟩ "run(!1!, b) it" =
        compile ⟨.inlineExecution, true⟩ "run(!1!, b) it" := by
  have h : leadsWithWord (scan .inlineExecution "run(!1!, b) it") = false := by decide
  obtain ⟨hscan, hcompile⟩ := scan_singleFunction "run(!1!, b) it"
  exact ⟨h, hscan, hcompile h true⟩

end CommandTemplate
