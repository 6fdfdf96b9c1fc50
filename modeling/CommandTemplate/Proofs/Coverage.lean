import CommandTemplate.Proofs.ScannerMoves

namespace CommandTemplate

/-- The second text is the first without some escape characters, each of which stands directly
before a special character that is kept. -/
inductive Unescapes : List Char → List Char → Prop
  | nil : Unescapes [] []
  | keep (c : Char) {cs ds : List Char} : Unescapes cs ds → Unescapes (c :: cs) (c :: ds)
  | drop {c : Char} {cs ds : List Char} : c ∈ expressionSpecial → Unescapes cs ds →
      Unescapes (escapeChar :: c :: cs) (c :: ds)

theorem Unescapes.refl (cs : List Char) : Unescapes cs cs := by
  induction cs with
  | nil => exact .nil
  | cons c cs ih => exact .keep c ih

/-- Which content a token may have that was read from the given characters. -/
inductive ReadFrom : List Char → TokenValue → Prop
  | punct (p : Punct) : ReadFrom [p.char] (.punct p)
  | identifier (name : String) : ReadFrom name.toList (.identifier name)
  | integer {digits : List Char} : digits ≠ [] → digits.all Char.isDigit = true →
      decimalValue digits < integerLimit → ReadFrom digits (.integer (decimalValue digits))
  | text {cs : List Char} {s : String} : Unescapes cs s.toList → ReadFrom cs (.text s)

/-- The characters that a token was read from. -/
def Token.slice (t : Token) (text : List Char) : List Char :=
  (text.drop t.start).take (t.stop - t.start)

/-- From `offset` on, a text is cut into the characters of tokens, in order, and white space
between them. -/
inductive Tiles : Nat → List Char → List Token → Prop
  | nil (offset : Nat) : Tiles offset [] []
  | blank {offset : Nat} {c : Char} {cs : List Char} {ts : List Token} : isBlank c = true →
      Tiles (offset + 1) cs ts → Tiles offset (c :: cs) ts
  | token {offset stop : Nat} {cs rest : List Char} {v : TokenValue} {ts : List Token} :
      cs ≠ [] → offset + cs.length = stop → ReadFrom cs v → Tiles stop rest ts →
      Tiles offset (cs ++ rest) (⟨v, offset, stop⟩ :: ts)

namespace Tiles

theorem bounds {offset : Nat} {cs : List Char} {ts : List Token} (h : Tiles offset cs ts) :
    ∀ t ∈ ts, offset ≤ t.start ∧ t.start < t.stop ∧ t.stop ≤ offset + cs.length := by
  induction h with
  | nil offset => simp
  | blank _ _ ih =>
    intro t ht
    have hb := ih t ht
    simp only [List.length_cons]
    omega
  | @token offset stop cs rest v ts hne hstop _ _ ih =>
    intro t ht
    have hlen : 0 < cs.length := List.length_pos_iff.mpr hne
    rw [List.length_append]
    rcases List.mem_cons.mp ht with rfl | ht
    · dsimp only
      omega
    · have hb := ih t ht
      omega

theorem ordered {offset : Nat} {cs : List Char} {ts : List Token} (h : Tiles offset cs ts) :
    ts.Pairwise (fun t u => t.stop ≤ u.start) := by
  induction h with
  | nil offset => exact .nil
  | blank _ _ ih => exact ih
  | token _ _ _ hrest ih => exact .cons (fun u hu => (hrest.bounds u hu).1) ih

/-- A character that no token covers is white space. -/
theorem isBlank_of_uncovered {offset : Nat} {cs : List Char} {ts : List Token}
    (h : Tiles offset cs ts) {i : Nat} {c : Char} (hc : cs[i]? = some c)
    (hu : ∀ t ∈ ts, ¬ (t.start ≤ offset + i ∧ offset + i < t.stop)) : isBlank c = true := by
  induction h generalizing i with
  | nil offset => simp at hc
  | blank hb _ ih =>
    cases i with
    | zero =>
      obtain rfl : _ = c := by simpa using hc
      exact hb
    | succ i =>
      refine ih (by simpa using hc) fun t ht hcov => hu t ht ?_
      omega
  | @token offset stop cs rest v ts _ hstop _ _ ih =>
    have hfirst := hu _ (List.mem_cons_self ..)
    dsimp only at hfirst
    have hi : cs.length ≤ i := by omega
    rw [List.getElem?_append_right hi] at hc
    refine ih hc fun t ht hcov => hu t (List.mem_cons_of_mem _ ht) ?_
    omega

theorem readFrom_slice {before cs : List Char} {ts : List Token}
    (h : Tiles before.length cs ts) :
    ∀ t ∈ ts, ReadFrom (t.slice (before ++ cs)) t.value := by
  generalize ho : before.length = offset at h
  induction h generalizing before with
  | nil offset => simp
  | @blank offset c cs ts _ _ ih =>
    intro t ht
    have hh := @ih (before ++ [c]) (by simp [ho]) t ht
    simpa using hh
  | @token offset stop cs rest v ts _ hstop hv _ ih =>
    intro t ht
    rcases List.mem_cons.mp ht with rfl | ht
    · have hlen : stop - offset = cs.length := by omega
      subst ho
      simpa [Token.slice, hlen] using hv
    · have hh := @ih (before ++ cs) (by simp [ho, hstop]) t ht
      simpa using hh

end Tiles

/-- The characters that a piece was read from. -/
def Piece.source : Piece → List Char
  | .plain c => [c]
  | .escaped c => [escapeChar, c]

def piecesSource (pieces : List Piece) : List Char :=
  pieces.flatMap Piece.source

theorem length_piecesSource (pieces : List Piece) :
    (piecesSource pieces).length = piecesWidth pieces := by
  induction pieces with
  | nil => rfl
  | cons p pieces ih =>
    have hp : p.source.length = p.width := by cases p <;> rfl
    rw [piecesSource, List.flatMap_cons, List.length_append, piecesWidth, hp]
    exact congrArg _ ih

theorem piecesWidth_append (as bs : List Piece) :
    piecesWidth (as ++ bs) = piecesWidth as + piecesWidth bs := by
  simp only [← length_piecesSource, piecesSource, List.flatMap_append, List.length_append]

theorem piecesSource_ne_nil {pieces : List Piece} (h : pieces ≠ []) : piecesSource pieces ≠ [] := by
  obtain ⟨p, rest, rfl⟩ := List.exists_cons_of_ne_nil h
  cases p <;> simp [piecesSource, Piece.source]

/-- Only special characters are read through an escape. -/
def EscapesSpecial (pieces : List Piece) : Prop :=
  ∀ c, Piece.escaped c ∈ pieces → c ∈ expressionSpecial

theorem EscapesSpecial.reverse {pieces : List Piece} (h : EscapesSpecial pieces) :
    EscapesSpecial pieces.reverse :=
  fun c hc => h c (List.mem_reverse.mp hc)

theorem unescapes_piecesSource {pieces : List Piece} (h : EscapesSpecial pieces) :
    Unescapes (piecesSource pieces) (pieces.map Piece.char) := by
  induction pieces with
  | nil => exact .nil
  | cons p pieces ih =>
    have hrest := ih fun c hc => h c (List.mem_cons_of_mem _ hc)
    cases p with
    | plain c => exact .keep c hrest
    | escaped c => exact .drop (h c (List.mem_cons_self ..)) hrest

/-- Without escapes the characters say what they are. -/
theorem piecesSource_eq_of_plain {pieces : List Piece} (h : ∀ c, Piece.escaped c ∉ pieces) :
    piecesSource pieces = pieces.map Piece.char := by
  induction pieces with
  | nil => rfl
  | cons p pieces ih =>
    have hrest := ih fun c hc => h c (List.mem_cons_of_mem _ hc)
    cases p with
    | plain c => simpa [piecesSource, Piece.source, Piece.char] using hrest
    | escaped c => exact absurd (List.mem_cons_self ..) (h c)

theorem not_isIdentContinue_of_special {c : Char} (h : c ∈ expressionSpecial) :
    isIdentContinue c = false := by
  simp only [expressionSpecial, List.mem_cons, List.not_mem_nil, or_false] at h
  rcases h with rfl | rfl | rfl | rfl | rfl | rfl | rfl <;> rfl

theorem isIdentContinue_of_mem_identifier {cs : List Char} (h : isIdentifier cs = true) :
    ∀ c ∈ cs, isIdentContinue c = true := by
  cases cs with
  | nil => simp
  | cons c cs =>
    simp only [isIdentifier, Bool.and_eq_true, List.all_eq_true] at h
    intro d hd
    rcases List.mem_cons.mp hd with rfl | hd
    · exact isIdentContinue_of_isIdentStart h.1
    · exact h.2 d hd

theorem isIdentifier_append {cs : List Char} {c : Char} (h : isIdentifier cs = true)
    (hc : isIdentContinue c = true) : isIdentifier (cs ++ [c]) = true := by
  cases cs with
  | nil => simp [isIdentifier] at h
  | cons d cs => simpa [isIdentifier, hc] using h

/-- A name holds no escapes, since no special character belongs to a name. -/
theorem not_mem_escaped_of_isIdentifier {pieces : List Piece} (h : EscapesSpecial pieces)
    (hi : isIdentifier (pieces.map Piece.char) = true) (c : Char) : Piece.escaped c ∉ pieces := by
  intro hm
  have hc := isIdentContinue_of_mem_identifier hi c (List.mem_map.mpr ⟨_, hm, rfl⟩)
  simp [not_isIdentContinue_of_special (h c hm)] at hc

theorem Tiles.text {offset : Nat} {pieces : List Piece} {rest : List Char} {ts : List Token}
    (hne : pieces ≠ []) (h : EscapesSpecial pieces)
    (ht : Tiles (offset + piecesWidth pieces) rest ts) :
    Tiles offset (piecesSource pieces ++ rest)
      (⟨.text (piecesText pieces), offset, offset + piecesWidth pieces⟩ :: ts) := by
  refine .token (piecesSource_ne_nil hne) (by rw [length_piecesSource]) (.text ?_) ht
  simpa [piecesText] using unescapes_piecesSource h

theorem Tiles.name {offset : Nat} {pieces : List Piece} {rest : List Char} {ts : List Token}
    (hne : pieces ≠ []) (h : ∀ c, Piece.escaped c ∉ pieces)
    (ht : Tiles (offset + piecesWidth pieces) rest ts) :
    Tiles offset (piecesSource pieces ++ rest)
      (⟨.identifier (piecesText pieces), offset, offset + piecesWidth pieces⟩ :: ts) := by
  refine .token (piecesSource_ne_nil hne) (by rw [length_piecesSource]) ?_ ht
  have hs : piecesSource pieces = (piecesText pieces).toList := by
    rw [piecesSource_eq_of_plain h, piecesText, String.toList_ofList]
  rw [hs]
  exact .identifier (piecesText pieces)

theorem trailingName_suffix (pieces : List Piece) : trailingName pieces <:+ pieces := by
  have hr : (pieces.reverse.takeWhile Piece.inName).reverse <:+ pieces.reverse.reverse :=
    List.reverse_suffix.mpr (List.takeWhile_prefix _)
  rw [List.reverse_reverse] at hr
  exact (List.dropWhile_suffix _).trans hr

/-- Before an open parenthesis a text is cut in front of the name at its end. -/
theorem callTokens_eq (start : Nat) (pieces : List Piece) :
    ∃ front, front ++ trailingName pieces = pieces ∧
      Scanner.callTokens start pieces =
        (if front.isEmpty then [] else
          [⟨.text (piecesText front), start, start + piecesWidth front⟩]) ++
        (if (trailingName pieces).isEmpty then [] else
          [⟨.identifier (piecesText (trailingName pieces)), start + piecesWidth front,
            start + piecesWidth front + piecesWidth (trailingName pieces)⟩]) := by
  obtain ⟨front, h⟩ := trailingName_suffix pieces
  have hlen : pieces.length - (trailingName pieces).length = front.length := by
    have := congrArg List.length h
    rw [List.length_append] at this
    omega
  have htake : pieces.take front.length = front := by
    rw [← h, List.take_left]
  refine ⟨front, h, ?_⟩
  simp only [Scanner.callTokens, hlen, htake]

theorem not_mem_escaped_trailingName (pieces : List Piece) (c : Char) :
    Piece.escaped c ∉ trailingName pieces := by
  intro hm
  have hm := (List.dropWhile_suffix _).subset hm
  have hin := List.all_eq_true.mp List.all_takeWhile _ (List.mem_reverse.mp hm)
  simp [Piece.inName] at hin

theorem Tiles.callTokens {offset : Nat} {pieces : List Piece} {rest : List Char} {ts : List Token}
    (h : EscapesSpecial pieces) (ht : Tiles (offset + piecesWidth pieces) rest ts) :
    Tiles offset (piecesSource pieces ++ rest) (Scanner.callTokens offset pieces ++ ts) := by
  obtain ⟨front, hsplit, hcall⟩ := callTokens_eq offset pieces
  have hplain := not_mem_escaped_trailingName pieces
  rw [hcall]
  generalize trailingName pieces = name at hsplit hplain
  subst hsplit
  rw [piecesWidth_append, ← Nat.add_assoc] at ht
  have hname : Tiles (offset + piecesWidth front) (piecesSource name ++ rest)
      ((if name.isEmpty then [] else [⟨.identifier (piecesText name), offset + piecesWidth front,
        offset + piecesWidth front + piecesWidth name⟩]) ++ ts) := by
    cases name with
    | nil => simpa [piecesSource, piecesWidth] using ht
    | cons p name => exact .name (List.cons_ne_nil p name) hplain ht
  have hsource : piecesSource (front ++ name) ++ rest =
      piecesSource front ++ (piecesSource name ++ rest) := by
    simp [piecesSource]
  rw [hsource, List.append_assoc]
  cases front with
  | nil => simpa [piecesSource, piecesWidth] using hname
  | cons p front =>
    exact .text (List.cons_ne_nil p front) (fun c hc => h c (List.mem_append_left _ hc)) hname

/-- The characters that the unfinished token was read from. -/
def Pending.source : Pending → List Char
  | .nothing => []
  | .run _ pieces => piecesSource pieces.reverse
  | .number _ digits => digits.reverse
  | .word _ letters => letters.reverse

namespace Scanner

/-- Where the unfinished token starts. -/
def pendingStart (s : Scanner) : Nat :=
  match s.pending with
  | .nothing => s.offset
  | .run start _ => start
  | .number start _ => start
  | .word start _ => start

/-- The unfinished token ends where the scanner stands, and is what its kind promises. -/
structure Tracks (s : Scanner) : Prop where
  fits : s.Fits
  reaches : s.pendingStart + s.pending.source.length = s.offset
  escapes {start : Nat} {pieces : List Piece} : s.pending = .run start pieces →
    EscapesSpecial pieces
  digits {start : Nat} {digits : List Char} : s.pending = .number start digits →
    digits ≠ [] ∧ ∀ c ∈ digits, c.isDigit = true
  letters {start : Nat} {letters : List Char} : s.pending = .word start letters →
    isIdentifier letters.reverse = true

theorem numberValue_readFrom {digits : List Char} (hne : digits ≠ [])
    (hd : ∀ c ∈ digits, c.isDigit = true) : ReadFrom digits (numberValue digits) := by
  unfold numberValue
  split
  next h => exact .integer hne (List.all_eq_true.mpr hd) h
  next =>
    refine .text ?_
    rw [String.toList_ofList]
    exact .refl digits

theorem Tracks.flush {s : Scanner} (hs : s.Tracks) {cs : List Char} {ts : List Token}
    (h : Tiles s.offset cs ts) : Tiles s.pendingStart (s.pending.source ++ cs) (s.flush ++ ts) := by
  have hr := hs.reaches
  have hf := hs.fits
  cases hp : s.pending with
  | nothing =>
    simp only [pendingStart, Scanner.flush, hp]
    exact h
  | run start pieces =>
    simp only [pendingStart, Scanner.flush, hp, Pending.source, length_piecesSource, Fits,
      textToken] at hr hf ⊢
    have hesc := (hs.escapes hp).reverse
    have hne : pieces.reverse ≠ [] := by simpa using hf.1
    rw [← hr] at h
    cases hn : s.namesFunction pieces.reverse with
    | true =>
      simp only [namesFunction, Bool.and_eq_true] at hn
      exact .name hne (not_mem_escaped_of_isIdentifier hesc hn.2) h
    | false => exact .text hne hesc h
  | number start digits =>
    simp only [pendingStart, Scanner.flush, hp, Pending.source, List.length_reverse] at hr ⊢
    obtain ⟨hne, hd⟩ := hs.digits hp
    have hne : digits.reverse ≠ [] := by simpa using hne
    have hv := numberValue_readFrom hne fun c hc => hd c (List.mem_reverse.mp hc)
    rw [← hr] at h
    exact .token hne (by rw [List.length_reverse]) hv h
  | word start letters =>
    simp only [pendingStart, Scanner.flush, hp, Pending.source, List.length_reverse] at hr ⊢
    have hi := hs.letters hp
    have hne : letters.reverse ≠ [] := by
      intro hn
      simp [hn, isIdentifier] at hi
    have hv := ReadFrom.identifier (String.ofList letters.reverse)
    rw [String.toList_ofList] at hv
    rw [← hr] at h
    exact .token hne (by rw [List.length_reverse]) hv h

theorem Tracks.flushBeforeParen {s : Scanner} (hs : s.Tracks) {cs : List Char} {ts : List Token}
    (h : Tiles s.offset cs ts) :
    Tiles s.pendingStart (s.pending.source ++ cs) (s.flushBeforeParen ++ ts) := by
  cases hp : s.pending with
  | run start pieces =>
    have hr := hs.reaches
    simp only [pendingStart, Scanner.flushBeforeParen, hp, Pending.source,
      length_piecesSource] at hr ⊢
    rw [← hr] at h
    exact .callTokens (hs.escapes hp).reverse h
  | nothing => simpa only [Scanner.flushBeforeParen, hp] using hs.flush h
  | number start digits => simpa only [Scanner.flushBeforeParen, hp] using hs.flush h
  | word start letters => simpa only [Scanner.flushBeforeParen, hp] using hs.flush h

theorem Tracks.ofNothing {s : Scanner} (h : s.pending = .nothing) : s.Tracks where
  fits := by simp [Fits, h]
  reaches := by simp [pendingStart, h, Pending.source]
  escapes := by simp [h]
  digits := by simp [h]
  letters := by simp [h]

theorem extend_source {s : Scanner} (hs : s.Fits) (hb : s.inBody = false) (c : Char) :
    (s.extend (.plain c)).2.pendingStart = s.pendingStart ∧
      (s.extend (.plain c)).2.pending.source = s.pending.source ++ [c] := by
  cases hp : s.pending with
  | nothing => simp [extend, pendingStart, hp, Pending.source, piecesSource, Piece.source]
  | run start pieces => simp [extend, pendingStart, hp, Pending.source, piecesSource, Piece.source]
  | number start digits => simp [Fits, hp, hb] at hs
  | word start letters => simp [Fits, hp, hb] at hs

theorem escape_source {s : Scanner} (ha : s.afterEscape = true) (c : Char) :
    (s.escape c).2.pendingStart = s.pendingStart ∧
      (s.escape c).2.pending.source = s.pending.source ++ [c] := by
  obtain ⟨start, pieces, hp⟩ := afterEscape_pending ha
  simp [escape, pendingStart, hp, Pending.source, piecesSource, Piece.source]

theorem entered_source {s : Scanner} (hs : s.Fits) (hb : s.inBody = false) (c : Char) :
    (s.entered.extend (.plain c)).2.pendingStart = s.pendingStart ∧
      (s.entered.extend (.plain c)).2.pending.source = s.pending.source ++ [c] := by
  have h := extend_source hs hb c
  rcases s.entered_eq with he | ⟨_, _, he⟩
  · rwa [he]
  · rw [he]
    exact h

theorem Tracks.move {s t : Scanner} {c : Char} {out : List Token} (hs : s.Tracks)
    (h : Move s c out t) : t.Tracks := by
  have hr := hs.reaches
  have hf := h.fits hs.fits
  cases h with
  | plain hb hc ho =>
    obtain ⟨hstart, hsource⟩ := entered_source hs.fits hb c
    have hpend : ∃ start pieces, (s.entered.extend (.plain c)).2.pending =
        .run start (.plain c :: pieces) ∧ EscapesSpecial pieces := by
      cases hp : s.pending with
      | run start pieces => exact ⟨start, pieces, by simp [Scanner.extend, hp], hs.escapes hp⟩
      | _ => exact ⟨s.offset, [], by simp [Scanner.extend, hp], by simp [EscapesSpecial]⟩
    obtain ⟨start, pieces, hp, hesc⟩ := hpend
    refine ⟨hf, ?_, ?_, by simp [hp], by simp [hp]⟩
    · rw [hstart, hsource, List.length_append, ← Nat.add_assoc, hr]
      simp [Scanner.extend]
    · rintro _ _ he d hd
      rw [hp] at he
      cases he
      exact hesc d (by simpa using hd)
  | escape hb ha hc ho =>
    obtain ⟨hstart, hsource⟩ := escape_source ha c
    obtain ⟨start, pieces, hp⟩ := afterEscape_pending ha
    have hesc := hs.escapes hp
    have hnew : (s.escape c).2.pending = .run start (.escaped c :: pieces) := by
      simp [Scanner.escape, hp]
    refine ⟨hf, ?_, ?_, by simp [hnew], by simp [hnew]⟩
    · rw [hstart, hsource, List.length_append, ← Nat.add_assoc, hr]
      rfl
    · rintro _ _ he d hd
      rw [hnew] at he
      cases he
      rcases List.mem_cons.mp hd with hd | hd
      · cases hd
        exact hc
      · exact hesc d (List.mem_cons_of_mem _ hd)
  | punct p hc he ho => exact .ofNothing rfl
  | call hc hi ha => exact .ofNothing rfl
  | moreDigits start digits hp hc =>
    obtain ⟨_, hd⟩ := hs.digits hp
    simp only [pendingStart, hp, Pending.source, List.length_reverse] at hr
    refine ⟨hf, ?_, by simp, ?_, by simp⟩
    · simp only [pendingStart, Pending.source, List.length_reverse, List.length_cons]
      omega
    · rintro _ _ he
      cases he
      exact ⟨List.cons_ne_nil c digits, by simpa [hc] using hd⟩
  | moreLetters start letters hp hc =>
    have hl := hs.letters hp
    simp only [pendingStart, hp, Pending.source, List.length_reverse] at hr
    refine ⟨hf, ?_, by simp, by simp, ?_⟩
    · simp only [pendingStart, Pending.source, List.length_reverse, List.length_cons]
      omega
    · rintro _ _ he
      cases he
      rw [List.reverse_cons]
      exact isIdentifier_append hl hc
  | blank hb hc => exact .ofNothing rfl
  | number hb hc =>
    refine ⟨hf, rfl, by simp, ?_, by simp⟩
    rintro _ _ he
    cases he
    simpa using hc
  | word hb hc =>
    refine ⟨hf, rfl, by simp, by simp, ?_⟩
    rintro _ _ he
    cases he
    simpa [isIdentifier] using hc
  | odd hb => exact .ofNothing rfl

theorem Tracks.tiles {s : Scanner} (hs : s.Tracks) (cs : List Char) :
    Tiles s.pendingStart (s.pending.source ++ cs) (s.read cs) := by
  induction cs generalizing s with
  | nil =>
    have h := hs.flush (.nil s.offset)
    rwa [List.append_nil (s.flush)] at h
  | cons c cs ih =>
    have hmove := step_move hs.fits c
    have hrest := ih (hs.move hmove)
    rw [read_cons]
    generalize (s.step c).1 = out at *
    generalize (s.step c).2 = t at *
    cases hmove with
    | plain hb hc ho =>
      rw [(entered_source hs.fits hb c).1, (entered_source hs.fits hb c).2] at hrest
      simpa using hrest
    | escape hb ha hc ho =>
      rw [(escape_source ha c).1, (escape_source ha c).2] at hrest
      simpa using hrest
    | punct p hc he ho =>
      subst hc
      have hp : Tiles s.offset (p.char :: cs) (s.punctToken p :: _) :=
        .token (List.cons_ne_nil p.char []) rfl (.punct p) hrest
      simpa using hs.flush hp
    | call hc hi ha =>
      subst hc
      have hp : Tiles s.offset ('(' :: cs) (s.punctToken .openParen :: _) :=
        .token (List.cons_ne_nil '(' []) rfl (.punct .openParen) hrest
      simpa using hs.flushBeforeParen hp
    | moreDigits start digits hp hc =>
      simp only [pendingStart, hp, Pending.source] at hrest ⊢
      simpa using hrest
    | moreLetters start letters hp hc =>
      simp only [pendingStart, hp, Pending.source] at hrest ⊢
      simpa using hrest
    | blank hb hc => exact hs.flush (.blank hc hrest)
    | number hb hc => exact hs.flush hrest
    | word hb hc => exact hs.flush hrest
    | odd hb =>
      have hv : ReadFrom [c] (.text (String.singleton c)) := by
        refine .text ?_
        rw [String.toList_singleton]
        exact .refl [c]
      have hp : Tiles s.offset (c :: cs) (⟨.text (String.singleton c), s.offset, s.offset + 1⟩ :: _) :=
        .token (List.cons_ne_nil c []) rfl hv hrest
      simpa using hs.flush hp

end Scanner

theorem scan_tiles (dialect : Dialect) (text : String) :
    Tiles 0 text.toList (scan dialect text) :=
  (Scanner.Tracks.ofNothing (s := .initial dialect) rfl).tiles text.toList

/-- Tokens have characters, all within the text, in order and without overlap. What lies between
them is white space, and the content of each is what its characters say. -/
theorem scan_slices (dialect : Dialect) (text : String) :
    (∀ t ∈ scan dialect text, t.start < t.stop ∧ t.stop ≤ text.toList.length) ∧
      (scan dialect text).Pairwise (fun t u => t.stop ≤ u.start) ∧
      (∀ i c, text.toList[i]? = some c →
        (∀ t ∈ scan dialect text, ¬ (t.start ≤ i ∧ i < t.stop)) → isBlank c = true) ∧
      ∀ t ∈ scan dialect text, ReadFrom (t.slice text.toList) t.value := by
  have h := scan_tiles dialect text
  refine ⟨?_, h.ordered, ?_, ?_⟩
  · intro t ht
    have hb := h.bounds t ht
    omega
  · intro i c hc hu
    exact h.isBlank_of_uncovered hc (by simpa using hu)
  · intro t ht
    have hs := @Tiles.readFrom_slice [] _ _ h t ht
    rwa [List.nil_append] at hs

end CommandTemplate
