import CommandTemplate.Proofs.Containment
import CommandTemplate.Proofs.Leniency
import CommandTemplate.Proofs.RoundTrip

namespace CommandTemplate

open Logged Scanner

/-- The modes after a token. -/
def modesAfterToken (modes : List Mode) : TokenValue → List Mode
  | .punct p => afterPunct modes p
  | _ => modes

/-- The modes after tokens. -/
def modesAfter (modes : List Mode) (vs : List TokenValue) : List Mode :=
  vs.foldl modesAfterToken modes

theorem modesAfter_append (modes : List Mode) (vs ws : List TokenValue) :
    modesAfter modes (vs ++ ws) = modesAfter (modesAfter modes vs) ws :=
  List.foldl_append

@[simp] theorem modesAfter_nil (modes : List Mode) : modesAfter modes [] = modes := rfl

@[simp] theorem modesAfter_cons (modes : List Mode) (v : TokenValue) (vs : List TokenValue) :
    modesAfter modes (v :: vs) = modesAfter (modesAfterToken modes v) vs := rfl

@[simp] theorem modesAfterToken_punct (modes : List Mode) (p : Punct) :
    modesAfterToken modes (.punct p) = afterPunct modes p := rfl

namespace Scanner

theorem flush_modesAfter (s : Scanner) (modes : List Mode) :
    modesAfter modes (s.flush.map Token.value) = modes := by
  unfold flush
  split
  next => rfl
  next =>
    simp only [textToken, List.map_cons, List.map_nil, modesAfter_cons, modesAfter_nil]
    split <;> rfl
  next =>
    simp only [numberValue, List.map_cons, List.map_nil, modesAfter_cons, modesAfter_nil]
    split <;> rfl
  next => rfl

theorem flushBeforeParen_modesAfter (s : Scanner) (modes : List Mode) :
    modesAfter modes (s.flushBeforeParen.map Token.value) = modes := by
  unfold flushBeforeParen
  split
  next start pieces _ =>
    obtain ⟨front, _, hcall⟩ := callTokens_eq start pieces.reverse
    rw [hcall, List.map_append, modesAfter_append]
    split <;> split <;> rfl
  next => exact s.flush_modesAfter modes

/-- The tokens that a move finishes tell which modes it leads to. -/
theorem Move.tokenModes_eq {s t : Scanner} {c : Char} {out : List Token} (h : Move s c out t) :
    t.tokenModes = modesAfter s.tokenModes (out.map Token.value) := by
  cases h with
  | plain hb hc ho =>
    rcases s.entered_eq with he | ⟨below, hm, he⟩
    · rw [he]
      rfl
    · simp [he, Scanner.extend, tokenModes, hm, Mode.atToken]
  | escape hb ha hc ho => rfl
  | punct p hc he ho =>
    have hopen : p = .openParen → s.modes.head? ≠ some .defaultText := by
      rintro rfl
      simp [show s.modes.head? = _ from ho]
    rw [List.map_append, modesAfter_append, flush_modesAfter]
    exact (afterPunct_map_atToken hopen).symm
  | call hc hi ha =>
    rw [List.map_append, modesAfter_append, flushBeforeParen_modesAfter]
    exact (afterPunct_openParen (inExpression_head hi).1).symm
  | moreDigits start digits hp hc => rfl
  | moreLetters start letters hp hc => rfl
  | blank hb hc => exact (s.flush_modesAfter _).symm
  | number hb hc => exact (s.flush_modesAfter _).symm
  | word hb hc => exact (s.flush_modesAfter _).symm
  | odd hb =>
    rw [List.map_append, modesAfter_append, flush_modesAfter]
    rfl

theorem advance_tokenModes {s : Scanner} (hf : s.Fits) (cs : List Char) :
    (s.advance cs).2.tokenModes = modesAfter s.tokenModes ((s.advance cs).1.map Token.value) := by
  induction cs generalizing s with
  | nil => rfl
  | cons c cs ih =>
    have hmove := step_move hf c
    rw [advance, List.map_append, modesAfter_append, ← hmove.tokenModes_eq]
    exact ih (hmove.fits hf)

theorem read_tokenModes {s : Scanner} (hf : s.Fits) (cs : List Char) :
    (s.advance cs).2.tokenModes = modesAfter s.tokenModes ((s.read cs).map Token.value) := by
  rw [read, List.map_append, modesAfter_append, flush_modesAfter, advance_tokenModes hf]

end Scanner

theorem DerivesBody.modesAfter_eq {vs : List TokenValue} {s : Substitution} (h : DerivesBody vs s)
    (modes : List Mode) : modesAfter modes vs = modes := by
  cases h <;> rfl

theorem modesAfter_closeAngle {modes : List Mode} {vs : List TokenValue}
    (h : modesAfter (.angle :: modes) vs = .angle :: modes) :
    modesAfter modes (.punct .openAngle :: (vs ++ [.punct .closeAngle])) = modes := by
  have hopen : afterPunct modes .openAngle = .angle :: modes := rfl
  simp only [modesAfter_cons, modesAfter_append, modesAfterToken_punct, hopen, h, modesAfter_nil,
    afterPunct_closeAngle]

theorem modesAfter_closeParen {modes : List Mode} {vs : List TokenValue}
    (hm : modes.head? ≠ some .defaultStart)
    (h : modesAfter (.paren :: modes) vs = .paren :: modes) :
    modesAfter modes (.punct .openParen :: (vs ++ [.punct .closeParen])) = modes := by
  simp only [modesAfter_cons, modesAfter_append, modesAfterToken_punct, afterPunct_openParen hm, h,
    modesAfter_nil, afterPunct_closeParen]

theorem DerivesBody.modesAfter_opened {vs ws : List TokenValue} {s : Substitution}
    (h : DerivesBody vs s) {dialect : Dialect} {modes : List Mode} {context : Context}
    (hf : Frame dialect modes context) (marker : Marker) :
    modesAfter modes (.punct marker.punct :: (vs ++ ws)) = modesAfter (.body marker :: modes) ws := by
  rw [modesAfter_cons, modesAfterToken_punct, hf.afterPunct_marker, modesAfter_append,
    h.modesAfter_eq]

mutual

/-- All that an expression opens it closes. -/
theorem DerivesExpr.modesAfter_eq {vs : List TokenValue} {e : Expr} (h : DerivesExpr vs e)
    {dialect : Dialect} {modes : List Mode} {context : Context}
    (hf : Frame dialect modes context) : modesAfter modes vs = modes := by
  cases h with
  | text s => rfl
  | emptyCall name => exact @modesAfter_closeParen modes [] hf.head_ne.2.1 rfl
  | call name ha => exact modesAfter_closeParen hf.head_ne.2.1 (ha.modesAfter_eq dialect modes)
  | group hg _ => exact modesAfter_closeAngle (hg.modesAfter_eq (@Frame.angle dialect modes))
  | imperative hb => exact hb.modesAfter_opened hf .imperative
  | optional hb => exact hb.modesAfter_opened hf .optional
  | literalDefault text hb => exact hb.modesAfter_opened hf .optional
  | groupDefault hb hg =>
    have hinner := hg.modesAfter_eq (@Frame.paren dialect (.afterDefault :: modes))
    have hopen : afterPunct (.defaultStart :: modes) .openParen =
        .paren :: .afterDefault :: modes := rfl
    have hend : afterPunct (.afterDefault :: modes) .question = modes := rfl
    refine (hb.modesAfter_opened hf .optional).trans ?_
    simp only [modesAfter_cons, modesAfter_append, modesAfterToken_punct, afterPunct_colon, hopen,
      hinner, afterPunct_closeParen, hend, modesAfter_nil]

theorem DerivesGroup.modesAfter_eq {vs : List TokenValue} {es : List Expr}
    (h : DerivesGroup vs es) {dialect : Dialect} {modes : List Mode} {context : Context}
    (hf : Frame dialect modes context) : modesAfter modes vs = modes := by
  cases h with
  | nil => rfl
  | cons he hes => rw [modesAfter_append, he.modesAfter_eq hf, hes.modesAfter_eq hf]

theorem DerivesArguments.modesAfter_eq {vs : List TokenValue} {as : List (List Expr)}
    (h : DerivesArguments vs as) (dialect : Dialect) (modes : List Mode) :
    modesAfter (.paren :: modes) vs = .paren :: modes := by
  cases h with
  | last _ ha => exact ha.modesAfter_eq (@Frame.paren dialect modes)
  | more _ ha has =>
    rw [modesAfter_append, ha.modesAfter_eq (@Frame.paren dialect modes)]
    exact has.modesAfter_eq dialect modes

end

/-- After a text without mistakes the scanner stands outside all brackets again. -/
theorem DerivesGroup.advance_modes {dialect : Dialect} {text : String} {g : List Expr}
    (h : DerivesGroup ((scan dialect text).map Token.value) g) :
    ((Scanner.initial dialect).advance text.toList).2.modes = [] := by
  have hmodes := @Scanner.read_tokenModes (.initial dialect) trivial text.toList
  have hback := @DerivesGroup.modesAfter_eq _ _ h dialect [] _ .root
  rw [scan_eq_read] at hback
  exact List.map_eq_nil_iff.mp (hmodes.trans hback)

theorem exists_punct_of_special {c : Char} (h : c ∈ expressionSpecial) :
    ∃ p : Punct, c = p.char := by
  simp only [expressionSpecial, List.mem_cons, List.not_mem_nil, or_false] at h
  rcases h with rfl | rfl | rfl | rfl | rfl | rfl | rfl
  · exact ⟨.exclamation, rfl⟩
  · exact ⟨.question, rfl⟩
  · exact ⟨.openAngle, rfl⟩
  · exact ⟨.closeAngle, rfl⟩
  · exact ⟨.openParen, rfl⟩
  · exact ⟨.closeParen, rfl⟩
  · exact ⟨.comma, rfl⟩

/-- Outside all brackets punctuation starts afresh, wherever it stands. -/
theorem Scanner.read_fresh {s : Scanner} (hm : s.modes = []) (ha : s.afterEscape = false)
    {p : Punct} (hp : p.char ∈ s.dialect.root.special) (ho : p ≠ .openParen) (cs : List Char) :
    s.read (p.char :: cs) =
      s.flush ++ ((Scanner.initial s.dialect).read (p.char :: cs)).map (Token.shift s.offset) := by
  have hstep : s.step p.char = s.emit p (afterPunct s.modes p) :=
    step_punct (by simp [reads, hm, hp]) ho fun _ => ha
  have hfresh : (Scanner.initial s.dialect).step p.char =
      (Scanner.initial s.dialect).emit p (afterPunct [] p) :=
    step_punct (by simp [reads, Scanner.initial, hp]) ho fun _ => rfl
  -- Behind the punctuation nothing is left of what came before but the offset.
  have hnext : s.next (afterPunct [] p) =
      ((Scanner.initial s.dialect).next (afterPunct [] p)).shift s.offset false := by
    simp [Scanner.next, Scanner.shift, Scanner.initial, Pending.shift]
    omega
  have hread := @read_shift s.offset false ((Scanner.initial s.dialect).next (afterPunct [] p))
    trivial (fun h => by cases h) cs
  rw [read_cons, read_cons, hstep, hfresh, hm, emit, emit, hnext, hread]
  simp [Scanner.initial, flush, punctToken, Token.shift, Nat.add_comm]

theorem scan_append {dialect : Dialect} {a b : String}
    (hm : ((Scanner.initial dialect).advance a.toList).2.modes = [])
    (hl : a.toList.getLast? ≠ some escapeChar) {c : Char} (hb : b.toList.head? = some c)
    (hc : c ∈ dialect.root.special) (ho : c ≠ '(') :
    scan dialect (a ++ b) =
      scan dialect a ++ (scan dialect b).map (Token.shift a.toList.length) := by
  have hfits : (Scanner.initial dialect).Fits := trivial
  have hd := advance_dialect hfits a.toList
  have hoff := advance_offset hfits a.toList
  have ha := advance_afterEscape hfits rfl hl
  obtain ⟨p, rfl⟩ := exists_punct_of_special (ReadsText.root.subset c hc)
  obtain ⟨cs, hcs⟩ := List.head?_eq_some_iff.mp hb
  have hp : p ≠ .openParen := by
    rintro rfl
    exact ho rfl
  have hread := read_fresh hm ha (by rw [hd]; exact hc) hp cs
  rw [hd, hoff] at hread
  rw [scan_eq_read, scan_eq_read, scan_eq_read, String.toList_append, read_append, hcs, hread]
  simp [Scanner.read, Scanner.initial]

/-- An expression of the grammar is read in silence, whether calls may be cut off or not. -/
theorem DerivesExpr.parseExpression_any {vs : List TokenValue} {e : Expr} (h : DerivesExpr vs e)
    (lenient : Bool) {budget : Nat} (hn : e.nesting ≤ budget) {us : List Token}
    (hu : us.map Token.value = vs) (edge : Edge) (rest : List Token) :
    ∃ t ts, us = t :: ts ∧
      CommandTemplate.parseExpression lenient (parseGroup lenient budget) edge t (ts ++ rest) =
        ⟨value (some e), rest⟩ := by
  obtain ⟨t, ts, rfl, hp⟩ := h.parseExpression (parseGroup_recognizes budget) hn hu edge rest
  refine ⟨t, ts, rfl, ?_⟩
  cases lenient with
  | false => exact hp
  | true =>
    have hr := parseExpression_relaxes (parseGroup_relaxes budget) edge t (ts ++ rest)
    rw [hp] at hr
    have ho := hr.outcome.eq_value rfl
    have hrest := hr.rest
    generalize CommandTemplate.parseExpression true (parseGroup true budget) edge t (ts ++ rest) = q at *
    cases q
    cases ho
    cases hrest
    rfl

theorem DerivesGroup.parseExpressions_append {g : List Expr} (lenient : Bool) {budget : Nat}
    {us : List Token} (h : DerivesGroup (us.map Token.value) g) (hn : ∀ e ∈ g, e.nesting ≤ budget)
    (edge : Edge) (rest : List Token) :
    CommandTemplate.parseExpressions lenient (parseGroup lenient budget) edge (us ++ rest) =
      (CommandTemplate.parseExpressions lenient (parseGroup lenient budget) edge rest).andThen
        fun es => value (g ++ es) := by
  induction g generalizing us with
  | nil =>
    generalize hv : us.map Token.value = vs at h
    cases h
    obtain rfl := List.map_eq_nil_iff.mp hv
    exact (andThen_value _).symm
  | cons e es ih =>
    generalize hv : us.map Token.value = vs at h
    cases h with
    | cons he hes =>
      obtain ⟨us, ws, rfl, hu, hw⟩ := List.map_eq_append_iff.mp hv
      obtain ⟨t, ts, rfl, hp⟩ :=
        he.parseExpression_any lenient (hn e (List.mem_cons_self ..)) hu edge (ws ++ rest)
      have hrest := @ih ws (hw ▸ hes) fun f hf => hn f (List.mem_cons_of_mem _ hf)
      rw [List.append_assoc, List.cons_append, parseExpressions_cons, hp]
      simp only [value_andThen, hrest, andThen_assoc, Option.toList, List.cons_append,
        List.nil_append]

/-- Tokens without mistakes are read for themselves, and what follows them is read as before. -/
theorem DerivesGroup.parseTokens_append {g : List Expr} {us : List Token}
    (h : DerivesGroup (us.map Token.value) g) (hn : groupNesting g ≤ maxNesting) (lenient : Bool)
    (rest : List Token) (length : Nat) :
    parseTokens lenient (us ++ rest) length =
      (parseTokens lenient rest length).andThen fun es => value (g ++ es) :=
  h.parseExpressions_append lenient (groupNesting_le_succ_iff.mp hn) (.inputEnd length) rest

/-- Templates compose: behind a template without mistakes, any text that starts with punctuation is
compiled as if it stood alone. -/
theorem compile_append {dialect : Dialect} {a b : String}
    (ha : (compile ⟨dialect, false⟩ a).diagnostics = [])
    (hlast : a.toList.getLast? ≠ some escapeChar) {c : Char} (hb : b.toList.head? = some c)
    (hc : c ∈ dialect.root.special) (hopen : c ≠ '(') (allow : Bool) :
    ∃ g, (compile ⟨dialect, false⟩ a).tree = some g ∧
      (compile ⟨dialect, allow⟩ (a ++ b)).tree = (compile ⟨dialect, allow⟩ b).tree.map (g ++ ·) ∧
      (compile ⟨dialect, allow⟩ (a ++ b)).diagnostics =
        (compile ⟨dialect, allow⟩ b).diagnostics.map (Diagnostic.shift a.toList.length) := by
  obtain ⟨g, hg⟩ := exists_tree_of_silent ha
  obtain ⟨hderives, hnesting⟩ := (compile_silent_iff dialect a g).mp ⟨hg, ha⟩
  have hscan := scan_append hderives.advance_modes hlast hb hc hopen
  have hlength : (a ++ b).toList.length = b.toList.length + a.toList.length := by
    rw [String.toList_append, List.length_append, Nat.add_comm]
  refine ⟨g, hg, @compile_behind ⟨dialect, allow⟩ (a ++ b) b _ g [] hlength ?_⟩
  rw [hscan, hlength, hderives.parseTokens_append hnesting, parseTokens_shift, andThen_map]
  rfl

theorem compile_append_broken :
    (compile ⟨.singleFunction, false⟩ "f(!1!, x)y").diagnostics = [] ∧
      ∃ g, (compile ⟨.singleFunction, false⟩ "f(!1!, x)y").tree = some g ∧
        (compile ⟨.singleFunction, true⟩ ("f(!1!, x)y" ++ ")<?2:(g(,")).tree =
          (compile ⟨.singleFunction, true⟩ ")<?2:(g(,").tree.map (g ++ ·) ∧
        (compile ⟨.singleFunction, true⟩ ("f(!1!, x)y" ++ ")<?2:(g(,")).diagnostics =
          (compile ⟨.singleFunction, true⟩ ")<?2:(g(,").diagnostics.map (Diagnostic.shift 10) := by
  have h : (compile ⟨.singleFunction, false⟩ "f(!1!, x)y").diagnostics = [] := by
    rw [← List.isEmpty_iff]
    decide +kernel
  exact ⟨h, compile_append h (by decide) rfl (by decide) (by decide) true⟩

end CommandTemplate
