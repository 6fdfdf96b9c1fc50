import CommandTemplate.Proofs.Names

namespace CommandTemplate

/-- The mode in which the token began that is being read. -/
def Mode.atToken : Mode → Mode
  | .defaultText => .defaultStart
  | m => m

/-- Whether the innermost mode is a substitution body. -/
def atBody : List Mode → Bool
  | .body _ :: _ => true
  | _ => false

/-- What may follow a text token that was not read between markers. -/
def Precedes (cs : List Char) : List TokenValue → Prop
  | [] => True
  | .punct _ :: _ => cs.getLast? ≠ some escapeChar
  | .identifier _ :: _ => endsInName cs = false
  | _ => False

/-- A text that was not read between markers, by what comes before and after it: neither would
read on into it. -/
structure StandsApart (dialect : Dialect) (started : Bool) (modes : List Mode) (cs : List Char)
    (next : List TokenValue) : Prop where
  nonempty : cs ≠ []
  unnamed : dialect = .singleFunction → started = false → isIdentifier cs = false
  unopened : modes.head? = some .defaultStart → ¬ [escapeChar, '('] <+: cs
  precedes : Precedes cs next

/-- The contents of tokens that a scan can give from a place between two tokens. -/
inductive Stream (dialect : Dialect) : Bool → List Mode → List TokenValue → Prop
  | nil {started : Bool} {modes : List Mode} : Stream dialect started modes []
  | punct {started : Bool} {modes : List Mode} (p : Punct) {vs : List TokenValue} :
      Stream dialect true (Scanner.afterPunct modes p) vs →
      Stream dialect started modes (.punct p :: vs)
  | integer {started : Bool} {modes : List Mode} {n : Nat} {vs : List TokenValue} :
      n < integerLimit → Stream dialect true modes vs →
      Stream dialect started modes (.integer n :: vs)
  | identifier {started : Bool} {modes : List Mode} {name : String} {vs : List TokenValue} :
      isIdentifier name.toList = true → dialect.root = .expression ∨ modes ≠ [] →
      Stream dialect true modes vs → Stream dialect started modes (.identifier name :: vs)
  | text {started : Bool} {modes : List Mode} {s : String} {vs : List TokenValue} :
      (atBody modes = false → StandsApart dialect started modes s.toList vs) →
      Stream dialect true modes vs → Stream dialect started modes (.text s :: vs)

/-- Between markers it makes no difference whether a token has been finished. -/
theorem Stream.atBody {dialect : Dialect} {started : Bool} {modes : List Mode}
    {vs : List TokenValue} (h : Stream dialect true modes vs) (hb : atBody modes = true) :
    Stream dialect started modes vs := by
  cases h with
  | nil => exact .nil
  | punct p h => exact .punct p h
  | integer hn h => exact .integer hn h
  | identifier hi hm h => exact .identifier hi hm h
  | text _ h => exact .text (by simp [hb]) h

theorem endsInName_of_isIdentifier {cs : List Char} (h : isIdentifier cs = true) :
    endsInName cs = true := by
  have hall : ∀ c ∈ cs.reverse, isIdentContinue c = true := by
    intro c hc
    exact isIdentContinue_of_mem_identifier h c (List.mem_reverse.mp hc)
  have ht : cs.reverse.takeWhile isIdentContinue = cs.reverse := by
    have ht := @List.takeWhile_append_of_pos _ isIdentContinue _ [] hall
    simpa using ht
  rw [endsInName, ht, List.any_reverse]
  cases cs with
  | nil => simp [isIdentifier] at h
  | cons c cs =>
    simp only [isIdentifier, Bool.and_eq_true] at h
    simp [h.1]

theorem escapeChar_not_mem_special : escapeChar ∉ expressionSpecial := by decide

namespace Scanner

/-- The modes in which the unfinished token began. -/
def tokenModes (s : Scanner) : List Mode :=
  s.modes.map Mode.atToken

theorem mem_map_atToken {m : Mode} (hm : m = .angle ∨ m = .paren) (modes : List Mode) :
    m ∈ modes.map Mode.atToken ↔ m ∈ modes := by
  constructor
  · intro h
    obtain ⟨m', hm', he⟩ := List.mem_map.mp h
    rcases hm with rfl | rfl <;> cases m' <;> simp_all [Mode.atToken]
  · intro h
    rcases hm with rfl | rfl <;> exact List.mem_map.mpr ⟨_, h, rfl⟩

theorem leave_map_atToken {m : Mode} (hm : m = .angle ∨ m = .paren) (modes : List Mode) :
    leave m (modes.map Mode.atToken) = (leave m modes).map Mode.atToken := by
  induction modes with
  | nil => rfl
  | cons top below ih =>
    by_cases htop : top = m
    · subst htop
      rcases hm with rfl | rfl <;> simp [leave, Mode.atToken]
    · have hne : top.atToken ≠ m := by
        rcases hm with rfl | rfl <;> cases top <;> simp_all [Mode.atToken]
      rw [List.map_cons, leave_cons_of_ne hne, leave_cons_of_ne htop, ih]

theorem afterPunct_map_atToken {modes : List Mode} {p : Punct}
    (h : p = .openParen → modes.head? ≠ some .defaultText) :
    afterPunct (modes.map Mode.atToken) p = (afterPunct modes p).map Mode.atToken := by
  cases p with
  | closeAngle =>
    simp only [afterPunct, mem_map_atToken (.inl rfl), leave_map_atToken (.inl rfl)]
    split <;> rfl
  | closeParen =>
    simp only [afterPunct, mem_map_atToken (.inr rfl), leave_map_atToken (.inr rfl)]
    split <;> rfl
  | openParen =>
    cases modes with
    | nil => rfl
    | cons top below => cases top <;> simp_all [afterPunct, Mode.atToken]
  | exclamation =>
    cases modes with
    | nil => rfl
    | cons top below =>
      cases top with
      | body marker => cases marker <;> rfl
      | _ => rfl
  | question =>
    cases modes with
    | nil => rfl
    | cons top below =>
      cases top with
      | body marker => cases marker <;> rfl
      | _ => rfl
  | colon => cases modes <;> rfl
  | _ => rfl

theorem afterPunct_openParen {modes : List Mode} (h : modes.head? ≠ some .defaultStart) :
    afterPunct modes .openParen = .paren :: modes := by
  cases modes with
  | nil => rfl
  | cons top below => cases top <;> simp_all [afterPunct]

theorem atBody_tokenModes (s : Scanner) : atBody s.tokenModes = s.inBody := by
  unfold tokenModes inBody
  cases s.modes with
  | nil => rfl
  | cons top below => cases top <;> rfl

/-- A literal default does not start with an escaped parenthesis that was left as it is. -/
def KeepsParen (s : Scanner) : Prop :=
  s.modes.head? = some .defaultText → ∀ start pieces, s.pending = .run start pieces →
    ¬ [escapeChar, '('] <+: pieces.reverse.map Piece.char

theorem Fits.nothing_or_run {s : Scanner} (hs : s.Fits) (hb : s.inBody = false) :
    s.pending = .nothing ∨ ∃ start pieces, s.pending = .run start pieces := by
  cases hp : s.pending with
  | nothing => exact .inl rfl
  | run start pieces => exact .inr ⟨start, pieces, rfl⟩
  | number start digits => simp [Fits, hp, hb] at hs
  | word start letters => simp [Fits, hp, hb] at hs

theorem pair_prefix_concat {a b c : Char} {cs : List Char} (h : [a, b] <+: cs ++ [c]) :
    [a, b] <+: cs ∨ cs = [a] ∧ c = b := by
  rcases List.prefix_concat_iff.mp h with h | h
  · have hsplit : [a] ++ [b] = cs ++ [c] := h
    obtain ⟨hcs, hc⟩ := List.append_inj' hsplit rfl
    cases hc
    exact .inr ⟨hcs.symm, rfl⟩
  · exact .inl h

theorem KeepsParen.move {s t : Scanner} {c : Char} {out : List Token} (hs : s.Tracks)
    (hk : s.KeepsParen) (h : Move s c out t) : t.KeepsParen := by
  cases h with
  | plain hb hc ho =>
    intro hm start pieces hp hpre
    rcases hs.fits.nothing_or_run hb with hq | ⟨start', old, hq⟩
    · simp only [Scanner.extend, entered_pending, hq] at hp
      cases hp
      simpa using hpre.length_le
    · have hf := hs.fits
      simp only [Fits, hq] at hf
      have he : s.entered = s := by
        rcases s.entered_eq with he | ⟨below, hstart, _⟩
        · exact he
        · exact absurd (by simp [hstart]) hf.2.2
      simp only [he, Scanner.extend, hq] at hp hm
      cases hp
      have hold := hk hm start _ hq
      rw [List.reverse_cons, List.map_append] at hpre
      rcases pair_prefix_concat hpre with hpre | ⟨honly, hc⟩
      · exact hold hpre
      · -- An escape directly after the colon would have taken the parenthesis.
        obtain ⟨p, hp, hchar⟩ := List.map_eq_singleton_iff.mp honly
        obtain rfl : old = [p] := by simpa using congrArg List.reverse hp
        have hno := ho hm hc
        cases p with
        | plain d =>
          obtain rfl : d = escapeChar := hchar
          simp [onlyEscape, hq] at hno
        | escaped d =>
          obtain rfl : d = escapeChar := hchar
          exact escapeChar_not_mem_special (hs.escapes hq _ (List.mem_cons_self ..))
  | escape hb ha hc ho =>
    intro hm start pieces hp hpre
    obtain ⟨start', old, hq⟩ := afterEscape_pending ha
    simp only [Scanner.escape, hq] at hp hm
    cases hp
    have hold := hk hm start _ hq
    rw [List.reverse_cons, List.map_append] at hold hpre
    rcases pair_prefix_concat hpre with hpre | ⟨honly, hc⟩
    · exact hold (hpre.trans (List.prefix_append ..))
    · have hyes := ho hm hc
      have hone : old.length = 1 := by simpa using congrArg List.length honly
      obtain ⟨p, rfl⟩ := List.length_eq_one_iff.mp hone
      simp [onlyEscape, hq] at hyes
  | punct p hc he ho => simp [KeepsParen, next]
  | call hc hi ha => simp [KeepsParen, next]
  | moreDigits start digits hp hc => simp [KeepsParen]
  | moreLetters start letters hp hc => simp [KeepsParen]
  | blank hb hc => simp [KeepsParen, next]
  | number hb hc => simp [KeepsParen]
  | word hb hc => simp [KeepsParen]
  | odd hb => simp [KeepsParen, next]

theorem last_ne_escapeChar {s : Scanner} (hs : s.Tracks) (ha : s.afterEscape = false)
    {start : Nat} {pieces : List Piece} (hp : s.pending = .run start pieces) :
    (pieces.reverse.map Piece.char).getLast? ≠ some escapeChar := by
  rw [List.map_reverse, List.getLast?_reverse, List.head?_map]
  cases pieces with
  | nil => simp
  | cons p rest =>
    intro hl
    have hl : p.char = escapeChar := by simpa using hl
    cases p with
    | plain c =>
      obtain rfl : c = escapeChar := hl
      simp [afterEscape, hp] at ha
    | escaped c =>
      obtain rfl : c = escapeChar := hl
      exact escapeChar_not_mem_special (hs.escapes hp _ (List.mem_cons_self ..))

theorem flush_stream {s : Scanner} (hs : s.Tracks) (hk : s.KeepsParen) {vs : List TokenValue}
    (h : ∀ started, Stream s.dialect started s.tokenModes vs)
    (hv : s.inBody = false → vs = [] ∨ s.afterEscape = false ∧ ∃ p rest, vs = .punct p :: rest) :
    Stream s.dialect s.started s.tokenModes (s.flush.map Token.value ++ vs) := by
  have hf := hs.fits
  have hbody := s.atBody_tokenModes
  cases hp : s.pending with
  | nothing => simpa [flush, hp] using h s.started
  | run start pieces =>
    simp only [Fits, hp] at hf
    simp only [flush, hp, textToken, List.map_cons, List.map_nil, List.singleton_append]
    split
    next hn =>
      simp only [namesFunction, Bool.and_eq_true, beq_iff_eq] at hn
      refine .identifier (by simpa [piecesText] using hn.2) (.inl ?_) (h true)
      rw [hn.1.1]
      rfl
    next hn =>
      refine .text (fun _ => ?_) (h true)
      have ht : (piecesText pieces.reverse).toList = pieces.reverse.map Piece.char := by
        simp [piecesText]
      rw [ht]
      refine ⟨by simpa using hf.1, ?_, ?_, ?_⟩
      · intro hd hst
        simpa [namesFunction, hd, hst] using hn
      · intro hm
        apply hk ?_ start pieces hp
        cases hmodes : s.modes with
        | nil => simp [tokenModes, hmodes] at hm
        | cons top below =>
          rw [hmodes] at hf
          cases top <;> simp_all [tokenModes, Mode.atToken]
      · rcases hv hf.2.1 with rfl | ⟨ha, p, rest, rfl⟩
        · trivial
        · exact last_ne_escapeChar hs ha hp
  | number start digits =>
    simp only [Fits, hp] at hf
    simp only [flush, hp, numberValue, List.map_cons, List.map_nil, List.singleton_append]
    split
    next hlimit => exact .integer hlimit (h true)
    next => exact .text (by simp [hbody, hf]) (h true)
  | word start letters =>
    simp only [Fits, hp] at hf
    simp only [flush, hp, List.map_cons, List.map_nil, List.singleton_append]
    refine .identifier (by simpa using hs.letters hp) (.inr ?_) (h true)
    intro hm
    simp [hm, atBody, hf] at hbody

theorem inExpression_root {s : Scanner} (h : s.inExpression = true) :
    s.dialect.root = .expression ∨ s.tokenModes ≠ [] := by
  unfold inExpression at h
  unfold tokenModes
  cases hm : s.modes with
  | nil => exact .inl (by simpa [hm] using h)
  | cons top below => exact .inr (by simp)

theorem inExpression_head {s : Scanner} (h : s.inExpression = true) :
    s.tokenModes.head? ≠ some .defaultStart ∧ s.inBody = false := by
  unfold inExpression at h
  unfold tokenModes inBody
  cases hm : s.modes with
  | nil => simp
  | cons top below => cases top <;> simp_all [Mode.atToken]

theorem flushBeforeParen_stream {s : Scanner} (hs : s.Tracks) (he : s.inExpression = true)
    (ha : s.afterEscape = false) {vs : List TokenValue}
    (h : ∀ started, Stream s.dialect started s.tokenModes (.punct .openParen :: vs)) :
    Stream s.dialect s.started s.tokenModes
      (s.flushBeforeParen.map Token.value ++ .punct .openParen :: vs) := by
  obtain ⟨hhead, hbody⟩ := inExpression_head he
  rcases hs.fits.nothing_or_run hbody with hp | ⟨start, pieces, hp⟩
  · simpa [flushBeforeParen, flush, hp] using h s.started
  obtain ⟨front, hsplit, hcall⟩ := callTokens_eq start pieces.reverse
  have hesc := (hs.escapes hp).reverse
  have hfront := front_not_endsInName hesc hsplit
  have hlast := last_ne_escapeChar hs ha hp
  have hident := @trailingName_isIdentifier pieces.reverse
  simp only [flushBeforeParen, hp, hcall]
  generalize trailingName pieces.reverse = name at hsplit hident
  -- First the name, if there is one, then the text in front of it, if there is any.
  have hname : ∀ started, Stream s.dialect started s.tokenModes
      ((if name.isEmpty then [] else [.identifier (piecesText name)]) ++
        .punct .openParen :: vs) := by
    intro started
    cases name with
    | nil => exact h started
    | cons p rest =>
      refine .identifier ?_ (inExpression_root he) (h true)
      simpa [piecesText] using hident (by simp)
  have hvalues : ((if front.isEmpty then [] else
        [⟨.text (piecesText front), start, start + piecesWidth front⟩]) ++
        (if name.isEmpty then [] else
          [⟨.identifier (piecesText name), start + piecesWidth front,
            start + piecesWidth front + piecesWidth name⟩]) : List Token).map Token.value =
      (if front.isEmpty then [] else [.text (piecesText front)]) ++
        (if name.isEmpty then [] else [.identifier (piecesText name)]) := by
    cases front <;> cases name <;> rfl
  rw [hvalues, List.append_assoc]
  have htext : (piecesText front).toList = front.map Piece.char := by simp [piecesText]
  cases front with
  | nil => exact hname s.started
  | cons p rest =>
    refine .text (fun _ => ?_) (hname true)
    rw [htext]
    refine ⟨by simp, ?_, fun hd => absurd hd hhead, ?_⟩
    · intro _ _
      cases hi : isIdentifier ((p :: rest).map Piece.char) with
      | false => rfl
      | true => rw [endsInName_of_isIdentifier hi] at hfront; cases hfront
    · cases name with
      | nil =>
        rw [List.append_nil] at hsplit
        rw [hsplit]
        exact hlast
      | cons q name => exact hfront

/-- The tokens from a state on are such a stream, counted from where the unfinished token
began. More punctuation may stand behind them, unless an escape is still open. -/
theorem Tracks.stream {s : Scanner} (hs : s.Tracks) (hk : s.KeepsParen) (cs : List Char)
    {tail : List TokenValue} (htail : ∀ started modes, Stream s.dialect started modes tail)
    (hend : tail = [] ∨
      (s.advance cs).2.afterEscape = false ∧ ∃ p rest, tail = .punct p :: rest) :
    Stream s.dialect s.started s.tokenModes ((s.read cs).map Token.value ++ tail) := by
  induction cs generalizing s with
  | nil => exact flush_stream hs hk (fun started => htail started _) (fun _ => hend)
  | cons c cs ih =>
    have hmove := step_move hs.fits c
    have hrest := ih (hs.move hmove) (hk.move hs hmove) (hmove.dialect_eq ▸ htail) hend
    rw [read_cons, List.map_append, List.append_assoc]
    generalize (s.step c).1 = out at *
    generalize (s.step c).2 = t at *
    generalize (t.read cs).map Token.value ++ tail = vs at hrest ⊢
    cases hmove with
    | plain hb hc ho =>
      rcases s.entered_eq with he | ⟨below, hm, he⟩
      · rw [he] at hrest
        exact hrest
      · rw [he] at hrest
        have hmodes : s.tokenModes = Mode.defaultStart :: below.map Mode.atToken := by
          simp [tokenModes, hm, Mode.atToken]
        rw [hmodes]
        exact hrest
    | escape hb ha hc ho => exact hrest
    | punct p hc he ho =>
      have hafter : s.tokenModes = s.modes.map Mode.atToken := rfl
      have hpunct : ∀ started, Stream s.dialect started s.tokenModes (.punct p :: vs) := by
        intro started
        refine .punct p ?_
        have hopen : p = .openParen → s.modes.head? ≠ some .defaultText := by
          rintro rfl
          simp [show s.modes.head? = _ from ho]
        rw [hafter, afterPunct_map_atToken hopen]
        exact hrest
      have hall := flush_stream hs hk hpunct (fun hb => .inr ⟨he hb, p, vs, rfl⟩)
      simpa [punctToken] using hall
    | call hc hi ha =>
      have hstart := (inExpression_head hi).1
      have hpunct : ∀ started, Stream s.dialect started s.tokenModes (.punct .openParen :: vs) := by
        intro started
        refine .punct .openParen ?_
        rw [afterPunct_openParen hstart]
        exact hrest
      have hall := flushBeforeParen_stream hs hi ha hpunct
      simpa [punctToken] using hall
    | moreDigits start digits hp hc => exact hrest
    | moreLetters start letters hp hc => exact hrest
    | blank hb hc =>
      have hbody := s.atBody_tokenModes
      exact flush_stream hs hk (fun _ => hrest.atBody (by rw [← hb, ← hbody]; rfl)) (by simp [hb])
    | number hb hc =>
      have hbody := s.atBody_tokenModes
      exact flush_stream hs hk (fun _ => hrest.atBody (by rw [← hb, ← hbody]; rfl)) (by simp [hb])
    | word hb hc =>
      have hbody := s.atBody_tokenModes
      exact flush_stream hs hk (fun _ => hrest.atBody (by rw [← hb, ← hbody]; rfl)) (by simp [hb])
    | odd hb =>
      have hbody := s.atBody_tokenModes
      have hodd : ∀ started, Stream s.dialect started s.tokenModes
          (.text (String.singleton c) :: vs) := fun _ => .text (by simp [hbody, hb]) hrest
      simpa using flush_stream hs hk hodd (by simp [hb])

end Scanner

theorem scan_stream_append (dialect : Dialect) (text : String) {tail : List TokenValue}
    (htail : ∀ started modes, Stream dialect started modes tail)
    (hend : tail = [] ∨ ((Scanner.initial dialect).advance text.toList).2.afterEscape = false ∧
      ∃ p rest, tail = .punct p :: rest) :
    Stream dialect false [] ((scan dialect text).map Token.value ++ tail) := by
  have hk : (Scanner.initial dialect).KeepsParen := by simp [Scanner.KeepsParen, Scanner.initial]
  exact (Scanner.Tracks.ofNothing (s := .initial dialect) rfl).stream hk text.toList htail hend

/-- The token contents of a text are such a stream. -/
theorem scan_stream (dialect : Dialect) (text : String) :
    Stream dialect false [] ((scan dialect text).map Token.value) := by
  have h := scan_stream_append dialect text (fun _ _ => .nil) (.inl rfl)
  rwa [List.append_nil] at h

end CommandTemplate
