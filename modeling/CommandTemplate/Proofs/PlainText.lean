import CommandTemplate.Proofs.Composition

namespace CommandTemplate

open Logged Scanner

/-- Every special character stands directly behind an escape character. -/
def Escaped (special cs : List Char) : Prop :=
  ∀ before c after, cs = before ++ c :: after → c ∈ special → before.getLast? = some escapeChar

/-- Whether the first character is special. -/
def startsSpecial (special : List Char) : List Char → Bool
  | [] => false
  | c :: _ => c ∈ special

/-- A text without the escape characters that stand directly in front of special characters. -/
def unescape (special : List Char) : List Char → List Char
  | [] => []
  | c :: cs =>
    if c = escapeChar ∧ startsSpecial special cs = true then unescape special cs
    else c :: unescape special cs

/-- The texts that stand for themselves: all punctuation is escaped, and the text is not the name
of a function. -/
def PlainText (dialect : Dialect) (text : String) : Prop :=
  Escaped dialect.root.special text.toList ∧
    ¬ (dialect = .singleFunction ∧ isIdentifier text.toList = true)

/-- The same of a text that stands behind `front`. -/
def EscapedBehind (special front cs : List Char) : Prop :=
  ∀ before c after, cs = before ++ c :: after → c ∈ special →
    (front ++ before).getLast? = some escapeChar

theorem escaped_iff {special cs : List Char} : Escaped special cs ↔ EscapedBehind special [] cs :=
  Iff.rfl

theorem escapedBehind_nil (special front : List Char) : EscapedBehind special front [] := by
  intro before c after h
  simp at h

theorem escapedBehind_cons {special front cs : List Char} {c : Char} :
    EscapedBehind special front (c :: cs) ↔
      (c ∈ special → front.getLast? = some escapeChar) ∧
        EscapedBehind special (front ++ [c]) cs := by
  constructor
  · intro h
    refine ⟨fun hc => by simpa using h [] c cs rfl hc, ?_⟩
    rintro before d after rfl hd
    simpa using h (c :: before) d after rfl hd
  · rintro ⟨hhead, hrest⟩ before d after hsplit hd
    rcases List.cons_eq_append_iff.mp hsplit with ⟨rfl, hd'⟩ | ⟨before, rfl, rfl⟩
    · cases hd'
      simpa using hhead hd
    · simpa using hrest before d after rfl hd

instance decidableEscapedBehind (special front : List Char) :
    (cs : List Char) → Decidable (EscapedBehind special front cs)
  | [] => .isTrue (escapedBehind_nil special front)
  | c :: cs =>
    have := decidableEscapedBehind special (front ++ [c]) cs
    decidable_of_iff _ escapedBehind_cons.symm

instance (special cs : List Char) : Decidable (Escaped special cs) :=
  decidableEscapedBehind special [] cs

instance (dialect : Dialect) (text : String) : Decidable (PlainText dialect text) :=
  inferInstanceAs (Decidable (_ ∧ _))

theorem EscapedBehind.startsSpecial_eq_false {special front cs : List Char}
    (h : EscapedBehind special front cs) (hl : front.getLast? ≠ some escapeChar) :
    startsSpecial special cs = false := by
  cases cs with
  | nil => rfl
  | cons c cs => simpa [startsSpecial] using fun hc => hl ((escapedBehind_cons.mp h).1 hc)

section

variable {special : List Char} (he : escapeChar ∉ special)

include he

theorem escapedBehind_escapeText (front cs : List Char) :
    EscapedBehind special front (escapeText special cs) := by
  induction cs generalizing front with
  | nil => exact escapedBehind_nil special front
  | cons c cs ih =>
    rw [escapeText]
    split
    next =>
      refine escapedBehind_cons.mpr ⟨fun hc => absurd hc he, ?_⟩
      exact escapedBehind_cons.mpr ⟨fun _ => List.getLast?_concat, ih _⟩
    next hc => exact escapedBehind_cons.mpr ⟨fun hc' => absurd hc' hc, ih _⟩

theorem unescape_escapeText (cs : List Char) : unescape special (escapeText special cs) = cs := by
  induction cs with
  | nil => rfl
  | cons c cs ih =>
    rw [escapeText]
    split
    next hc =>
      have hne : c ≠ escapeChar := by
        rintro rfl
        exact he hc
      simp [unescape, startsSpecial, hc, hne, ih]
    next =>
      have hstart := (escapedBehind_escapeText he [] cs).startsSpecial_eq_false (by simp)
      simp [unescape, hstart, ih]

/-- Escapes that were deleted are written again. At the head of the text one is written even if it
stood in front of the text. -/
theorem EscapedBehind.escapeText_unescape {front cs : List Char}
    (h : EscapedBehind special front cs) :
    escapeText special (unescape special cs) =
      if startsSpecial special cs then escapeChar :: cs else cs := by
  induction cs generalizing front with
  | nil => rfl
  | cons c cs ih =>
    obtain ⟨_, hrest⟩ := escapedBehind_cons.mp h
    have hcs := ih hrest
    rw [unescape]
    split
    next hdrop =>
      rw [hcs, if_pos hdrop.2, hdrop.1]
      simp [startsSpecial, he]
    next hkeep =>
      have hstart : startsSpecial special cs = false := by
        by_cases hc : c = escapeChar
        · simpa [hc] using hkeep
        · exact hrest.startsSpecial_eq_false (by simpa using hc)
      rw [hstart] at hcs
      rw [escapeText, hcs]
      simp [startsSpecial]

theorem Escaped.escapeText_unescape {cs : List Char} (h : Escaped special cs) :
    escapeText special (unescape special cs) = cs := by
  have hbehind := escaped_iff.mp h
  rw [hbehind.escapeText_unescape he, hbehind.startsSpecial_eq_false (by simp)]
  rfl

end

theorem escapeChar_not_mem_root (dialect : Dialect) : escapeChar ∉ dialect.root.special := by
  cases dialect <;> decide

theorem isJustText_append (ts us : List Token) :
    isJustText (ts ++ us) = (isJustText ts && isJustText us) := by
  simp [isJustText]

/-- Outside all brackets, only escaped characters can be read without punctuation. -/
theorem Scanner.escapedBehind_of_justText {s : Scanner} (hs : s.Fits) (hm : s.modes = [])
    {front cs : List Char} (hfront : s.afterEscape = true → front.getLast? = some escapeChar)
    (h : isJustText (s.read cs) = true) :
    EscapedBehind s.dialect.root.special front cs := by
  induction cs generalizing s front with
  | nil => exact escapedBehind_nil _ front
  | cons c cs ih =>
    have hmove := step_move hs c
    have hbody : s.inBody ≠ true := by simp [inBody, hm]
    rw [read_cons, isJustText_append, Bool.and_eq_true] at h
    have hlast : (s.step c).2.afterEscape = true →
        (front ++ [c]).getLast? = some escapeChar := by
      intro ha
      rw [hmove.eq_escapeChar ha, List.getLast?_concat]
    have hrest : (s.step c).2.modes = [] →
        EscapedBehind s.dialect.root.special (front ++ [c]) cs := by
      intro hm
      rw [← hmove.dialect_eq]
      exact ih (hmove.fits hs) hm hlast h.2
    have hout := h.1
    generalize (s.step c).1 = out at *
    generalize (s.step c).2 = t at *
    rw [escapedBehind_cons]
    cases hmove with
    | plain hb hc ho =>
      have hspecial : s.special = s.dialect.root.special := by simp [special, hm]
      have he : s.entered = s := by simp [entered, hm]
      rw [hspecial] at hc
      rw [he] at hrest
      exact ⟨fun hc' => absurd hc' hc, hrest hm⟩
    | escape hb ha hc ho => exact ⟨fun _ => hfront ha, hrest hm⟩
    | punct p hc he ho => simp [isJustText, punctToken, TokenValue.isText] at hout
    | call hc hi ha => simp [isJustText, punctToken, TokenValue.isText] at hout
    | moreDigits start digits hp hc => simp [Fits, hp, hbody] at hs
    | moreLetters start letters hp hc => simp [Fits, hp, hbody] at hs
    | blank hb hc => exact absurd hb hbody
    | number hb hc => exact absurd hb hbody
    | word hb hc => exact absurd hb hbody
    | odd hb => exact absurd hb hbody

theorem escaped_of_justText {dialect : Dialect} {text : String}
    (h : isJustText (scan dialect text) = true) : Escaped dialect.root.special text.toList := by
  have hfront : (Scanner.initial dialect).afterEscape = true →
      ([] : List Char).getLast? = some escapeChar := by simp [afterEscape, Scanner.initial]
  have hfits : (Scanner.initial dialect).Fits := trivial
  exact escaped_iff.mpr (escapedBehind_of_justText hfits rfl hfront h)

/-- A text that is written with escapes is read back as one token. -/
theorem scan_escapeText (dialect : Dialect) {cs : List Char} (hne : cs ≠ []) :
    (scan dialect (String.ofList (escapeText dialect.root.special cs))).map Token.value =
      [if dialect = .singleFunction ∧ isIdentifier cs = true then .identifier (String.ofList cs)
        else .text (String.ofList cs)] := by
  obtain ⟨offset, pending, hadv, hholds⟩ :=
    @ReadsText.advance_escapeText (.initial dialect) dialect.root.special .root 0 []
      (.inr ⟨rfl, rfl, rfl⟩) cs (by simp [Scanner.initial])
  rw [List.append_nil] at hholds
  have hchars : (written dialect.root.special cs).map Piece.char = cs := map_char_written _ cs
  have hpieces : (written dialect.root.special cs).reverse ≠ [] := by
    intro hn
    rw [List.reverse_eq_nil_iff.mp hn] at hchars
    exact hne hchars.symm
  have hpending : pending = .run 0 (written dialect.root.special cs).reverse :=
    hholds.pending_eq hpieces
  rw [scan_eq_read, String.toList_ofList, Scanner.read, hadv, List.nil_append, flush]
  simp only [hpending, List.map_singleton, textToken, namesFunction, piecesText,
    List.reverse_reverse, hchars, Scanner.initial]
  simp only [Bool.not_false, Bool.and_true, Bool.and_eq_true, beq_iff_eq]

theorem isJustText_eq_all (ts : List Token) :
    isJustText ts = (ts.map Token.value).all TokenValue.isText := by
  simp [isJustText, Function.comp_def]

/-- A text without mistakes compiles to its tree, whether calls may be cut off or not. -/
theorem compile_of_derives {options : Options} {text : String} {g : List Expr}
    (h : DerivesGroup ((scan options.dialect text).map Token.value) g)
    (hn : groupNesting g ≤ maxNesting) :
    compile options text = ⟨some g, [], isJustText (scan options.dialect text)⟩ := by
  have hempty : parseTokens options.allowUnterminated [] text.toList.length = value [] :=
    parseExpressions_nil _ _ _
  have hparse := h.parseTokens_append hn options.allowUnterminated [] text.toList.length
  rw [List.append_nil, hempty, value_andThen, List.append_nil] at hparse
  simp only [compile, hparse]
  rfl

theorem compile_of_text {options : Options} {text s : String}
    (h : (scan options.dialect text).map Token.value = [.text s]) :
    compile options text = ⟨some [.literal s], [], true⟩ := by
  have hgroup : DerivesGroup ((scan options.dialect text).map Token.value) [.literal s] := by
    rw [h]
    exact .cons (.text s) .nil
  rw [compile_of_derives hgroup (by simp [groupNesting, Expr.nesting, maxNesting]),
    isJustText_eq_all, h]
  rfl

theorem formatTemplate_of_compile {dialect : Dialect} {text : String} {g : List Expr}
    {justText : Bool} (h : compile ⟨dialect, false⟩ text = ⟨some g, [], justText⟩) :
    formatTemplate dialect text = .ok (renderTemplate dialect g) := by
  rw [formatTemplate_eq_ok_iff, h]
  exact ⟨g, rfl, rfl, rfl⟩

theorem renderTemplate_literal (dialect : Dialect) (s : String) :
    renderTemplate dialect [.literal s] =
      String.ofList (escapeText dialect.root.special s.toList) := by
  simp [renderTemplate, Expr.renderGroup, Expr.render]

theorem mem_escapeText {special cs : List Char} {c : Char} (h : c ∈ cs) :
    c ∈ escapeText special cs := by
  induction cs with
  | nil => simp at h
  | cons d cs ih =>
    rw [escapeText]
    rcases List.mem_cons.mp h with rfl | h
    · split <;> simp
    · split <;> simp [ih h]

/-- Names are written as they are, and nothing else is written as a name. -/
theorem isIdentifier_escapeText (dialect : Dialect) (cs : List Char) :
    isIdentifier (escapeText dialect.root.special cs) = isIdentifier cs := by
  have hsubset := @ReadsText.subset dialect _ _ .root
  have hplain : (∀ c ∈ cs, isIdentContinue c = true) →
      escapeText dialect.root.special cs = cs := by
    intro hcs
    exact (escapeText_of_isIdentifier hsubset hcs).1
  rw [Bool.eq_iff_iff]
  constructor
  · intro h
    rw [hplain fun c hc => isIdentContinue_of_mem_identifier h c (mem_escapeText hc)] at h
    exact h
  · intro h
    rw [hplain (isIdentContinue_of_mem_identifier h)]
    exact h

/-- A text whose punctuation is escaped is read as one token. -/
theorem Escaped.values {dialect : Dialect} {text : String}
    (h : Escaped dialect.root.special text.toList) (hne : text ≠ "") :
    (scan dialect text).map Token.value =
      [if dialect = .singleFunction ∧ isIdentifier text.toList = true then
          .identifier (String.ofList (unescape dialect.root.special text.toList))
        else .text (String.ofList (unescape dialect.root.special text.toList))] := by
  have hwritten := h.escapeText_unescape (escapeChar_not_mem_root dialect)
  have hchars : unescape dialect.root.special text.toList ≠ [] := by
    intro hn
    rw [hn] at hwritten
    exact hne (String.toList_eq_nil_iff.mp hwritten.symm)
  have hscan := scan_escapeText dialect hchars
  rwa [← isIdentifier_escapeText dialect, hwritten, String.ofList_toList] at hscan

theorem PlainText.values {dialect : Dialect} {text : String} (h : PlainText dialect text)
    (hne : text ≠ "") :
    (scan dialect text).map Token.value =
      [.text (String.ofList (unescape dialect.root.special text.toList))] := by
  rw [h.1.values hne, if_neg h.2]

theorem isJustText_scan_iff (dialect : Dialect) (text : String) :
    isJustText (scan dialect text) = true ↔ PlainText dialect text := by
  constructor
  · intro h
    have hescaped := escaped_of_justText h
    refine ⟨hescaped, ?_⟩
    intro hname
    have hne : text ≠ "" := by
      rintro rfl
      simp [isIdentifier] at hname
    rw [isJustText_eq_all, hescaped.values hne, if_pos hname] at h
    cases h
  · intro h
    by_cases hne : text = ""
    · rw [hne]
      cases dialect <;> rfl
    · rw [isJustText_eq_all, h.values hne]
      rfl

/-- The tree of a plain text is the literal that it stands for. -/
def literalTree (dialect : Dialect) (text : String) : List Expr :=
  if text = "" then []
  else [.literal (String.ofList (unescape dialect.root.special text.toList))]

theorem PlainText.compile_eq {dialect : Dialect} {text : String} (h : PlainText dialect text)
    (allow : Bool) :
    compile ⟨dialect, allow⟩ text = ⟨some (literalTree dialect text), [], true⟩ := by
  unfold literalTree
  split
  next hempty =>
    rw [hempty]
    exact compile_of_derives .nil (by simp [groupNesting, maxNesting])
  next hne => exact compile_of_text (h.values hne)

theorem PlainText.render_eq {dialect : Dialect} {text : String} (h : PlainText dialect text) :
    renderTemplate dialect (literalTree dialect text) = text := by
  unfold literalTree
  split
  next hempty =>
    rw [hempty]
    rfl
  next =>
    rw [renderTemplate_literal, String.toList_ofList,
      h.1.escapeText_unescape (escapeChar_not_mem_root dialect), String.ofList_toList]

theorem plainText_literal {dialect : Dialect} {s : String}
    (hn : ¬ (dialect = .singleFunction ∧ isIdentifier s.toList = true)) :
    PlainText dialect (renderTemplate dialect [.literal s]) := by
  rw [renderTemplate_literal, PlainText, String.toList_ofList, isIdentifier_escapeText]
  exact ⟨escaped_iff.mpr (escapedBehind_escapeText (escapeChar_not_mem_root dialect) [] _), hn⟩

/-- Writing a literal and reading it back gives the literal. -/
theorem literalTree_literal {dialect : Dialect} {s : String} (hne : s ≠ "") :
    literalTree dialect (renderTemplate dialect [.literal s]) = [.literal s] := by
  have hread : unescape dialect.root.special (renderTemplate dialect [.literal s]).toList =
      s.toList := by
    rw [renderTemplate_literal, String.toList_ofList,
      unescape_escapeText (escapeChar_not_mem_root dialect)]
  have hwritten : renderTemplate dialect [.literal s] ≠ "" := by
    intro hempty
    rw [hempty] at hread
    exact hne (String.toList_eq_nil_iff.mp hread.symm)
  rw [literalTree, if_neg hwritten, hread, String.ofList_toList]

/-- Plain texts and literals correspond to one another. The texts that scan as just text are the
plain ones. Each compiles to the literal that it stands for, and is its own canonical form.
Each literal is written as such a text and read back from it. -/
theorem plainText_literals (dialect : Dialect) :
    dialect.root.special = (if dialect = .standard then ['!', '?', '<', '>']
        else ['!', '?', '<', '>', '(', ')', ',']) ∧
      (∀ text, (scanned dialect text).justText = true ↔ PlainText dialect text) ∧
      (∀ text, PlainText dialect text →
        (∀ allow, (compile ⟨dialect, allow⟩ text).diagnostics = [] ∧
          (compile ⟨dialect, allow⟩ text).tree = some (if text = "" then []
            else [.literal (String.ofList (unescape dialect.root.special text.toList))])) ∧
        formatTemplate dialect text = .ok text) ∧
      ∀ s, s ≠ "" → ¬ (dialect = .singleFunction ∧ isIdentifier s.toList = true) →
        PlainText dialect (renderTemplate dialect [.literal s]) ∧
          ∀ allow, compile ⟨dialect, allow⟩ (renderTemplate dialect [.literal s]) =
            ⟨some [.literal s], [], true⟩ := by
  refine ⟨by cases dialect <;> rfl, isJustText_scan_iff dialect, ?_, ?_⟩
  · intro text h
    refine ⟨fun allow => ?_, ?_⟩
    · rw [h.compile_eq allow]
      exact ⟨rfl, rfl⟩
    · rw [formatTemplate_of_compile (h.compile_eq false), h.render_eq]
  · intro s hne hn
    have hplain := plainText_literal hn
    refine ⟨hplain, fun allow => ?_⟩
    rw [hplain.compile_eq allow, literalTree_literal hne]

theorem plainText_literals_path :
    PlainText .singleFunction "C:\\bin\\\\, \\(x\\)\\" ∧
      (compile ⟨.singleFunction, true⟩ "C:\\bin\\\\, \\(x\\)\\").tree =
        some [.literal "C:\\bin\\, (x)\\"] ∧
      formatTemplate .singleFunction "C:\\bin\\\\, \\(x\\)\\" =
        .ok "C:\\bin\\\\, \\(x\\)\\" ∧
      compile ⟨.singleFunction, false⟩
          (renderTemplate .singleFunction [.literal "C:\\bin\\, (x)\\"]) =
        ⟨some [.literal "C:\\bin\\, (x)\\"], [], true⟩ := by
  obtain ⟨_, _, htext, hliteral⟩ := plainText_literals .singleFunction
  have h : PlainText .singleFunction "C:\\bin\\\\, \\(x\\)\\" := by decide
  obtain ⟨hcompile, hformat⟩ := htext _ h
  refine ⟨h, ?_, hformat, (hliteral _ (by decide) (by decide)).2 false⟩
  rw [(hcompile true).2]
  rfl

end CommandTemplate
