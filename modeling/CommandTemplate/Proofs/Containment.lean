import CommandTemplate.Proofs.Mistakes
import CommandTemplate.Proofs.ParserShift

namespace CommandTemplate

/-- The only angle bracket that is open is the outermost of all modes. -/
inductive AngleLast : List Mode → Prop
  | angle : AngleLast [.angle]
  | push {m : Mode} {modes : List Mode} : m ≠ .angle → AngleLast modes → AngleLast (m :: modes)

namespace AngleLast

theorem pop {top : Mode} {below : List Mode} (h : AngleLast (top :: below)) (ht : top ≠ .angle) :
    AngleLast below := by
  cases h with
  | angle => exact absurd rfl ht
  | push _ h => exact h

theorem mem {modes : List Mode} (h : AngleLast modes) : .angle ∈ modes := by
  induction h with
  | angle => simp
  | push _ _ ih => exact List.mem_cons_of_mem _ ih

theorem leave_angle {modes : List Mode} (h : AngleLast modes) : Scanner.leave .angle modes = [] := by
  induction h with
  | angle => rfl
  | push hm _ ih => rw [Scanner.leave_cons_of_ne hm, ih]

theorem leave_paren {modes : List Mode} (h : AngleLast modes) (hp : .paren ∈ modes) :
    AngleLast (Scanner.leave .paren modes) := by
  induction h with
  | angle => simp at hp
  | @push m modes hm h ih =>
    by_cases hparen : m = .paren
    · subst hparen
      simpa [Scanner.leave] using h
    · rw [Scanner.leave_cons_of_ne hparen]
      exact ih (by simpa [Ne.symm hparen] using hp)

/-- Punctuation other than an angle bracket leaves it open. -/
theorem afterPunct {s : Scanner} {p : Punct} (h : AngleLast s.modes) (hp : s.Places p)
    (hopen : p ≠ .openAngle) (hclose : p ≠ .closeAngle) :
    AngleLast (Scanner.afterPunct s.modes p) := by
  cases p with
  | openAngle => exact absurd rfl hopen
  | closeAngle => exact absurd rfl hclose
  | openParen =>
    obtain ⟨below, hm⟩ := List.head?_eq_some_iff.mp hp
    rw [hm] at h ⊢
    exact .push (by simp) (.push (by simp) (h.pop (by simp)))
  | closeParen =>
    simp only [Scanner.afterPunct]
    split
    next hin => exact h.leave_paren hin
    next => exact h
  | comma => exact h
  | exclamation =>
    simp only [Scanner.afterPunct]
    split
    next below hm =>
      rw [hm] at h
      exact h.pop (by simp)
    next => exact .push (by simp) h
  | question =>
    simp only [Scanner.afterPunct]
    split
    next below hm => rw [hm] at h; exact h.pop (by simp)
    next below hm => rw [hm] at h; exact h.pop (by simp)
    next below hm => rw [hm] at h; exact h.pop (by simp)
    next below hm => rw [hm] at h; exact h.pop (by simp)
    next => exact .push (by simp) h
  | colon =>
    have hbody : s.inBody = true := hp
    unfold Scanner.inBody at hbody
    split at hbody
    next marker below hm =>
      rw [hm] at h ⊢
      exact .push (by simp) (h.pop (by simp))
    next => cases hbody
  | hyphen => exact h

end AngleLast

namespace Scanner

theorem Move.angleLast {s t : Scanner} {c : Char} {out : List Token} (h : Move s c out t)
    (hs : AngleLast s.modes) (hopen : c ≠ '<') (hclose : c ≠ '>') : AngleLast t.modes := by
  cases h with
  | plain hb hc ho =>
    rcases s.entered_eq with he | ⟨below, hm, he⟩
    · rw [he]
      exact hs
    · rw [hm] at hs
      rw [he]
      exact .push (by simp) (hs.pop (by simp))
  | punct p hc he ho =>
    refine hs.afterPunct ho ?_ ?_
    · rintro rfl
      exact hopen hc
    · rintro rfl
      exact hclose hc
  | call hc hi ha => exact .push (by simp) hs
  | _ => exact hs

/-- Text without angle brackets leaves an open one as it is. -/
theorem advance_angleLast {s : Scanner} (hf : s.Fits) (hs : AngleLast s.modes) {cs : List Char}
    (hopen : '<' ∉ cs) (hclose : '>' ∉ cs) : AngleLast (s.advance cs).2.modes := by
  induction cs generalizing s with
  | nil => exact hs
  | cons c cs ih =>
    simp only [List.mem_cons, not_or] at hopen hclose
    have hmove := step_move hf c
    have hmodes := hmove.angleLast hs (Ne.symm hopen.1) (Ne.symm hclose.1)
    exact ih (hmove.fits hf) hmodes hopen.2 hclose.2

/-- A closing angle bracket ends everything inside it, wherever it stands. -/
theorem step_closeAngle {s : Scanner} (hm : .angle ∈ s.modes) (ha : s.afterEscape = false) :
    s.step '>' = s.emit .closeAngle (leave .angle s.modes) := by
  have hclose : s.close .closeAngle .angle = s.emit .closeAngle (leave .angle s.modes) := by
    simp [close, hm]
  have hexpression : s.stepExpression '>' = s.close .closeAngle .angle := by
    simp [stepExpression, ha]
  unfold step
  split
  next he => simp [he] at hm
  next => rw [hexpression, hclose]
  next => rw [hexpression, hclose]
  next marker below he =>
    have hfresh : s.stepBodyFresh marker below '>' = s.close .closeAngle .angle := by
      cases marker <;> simp [stepBodyFresh, Marker.punct, Punct.char, hm]
    have hdigit : '>'.isDigit = false := rfl
    have hletter : isIdentContinue '>' = false := rfl
    unfold stepBody
    split
    next => simp [hdigit, hfresh, hclose]
    next => simp [hletter, hfresh, hclose]
    next => rw [hfresh, hclose]
  next below he =>
    have hin : .angle ∈ below := by simpa [he] using hm
    have hnone : ({ s with modes := .defaultText :: below } : Scanner).afterEscape = false := ha
    simp [stepDefaultStart, stepDefault, hnone, hin, close, leave_cons_of_ne, he]
    rfl
  next below he => simp [stepDefaultText, stepDefault, ha, hm, hclose]
  next below he => simp [stepDefault, ha, hm, hclose]

end Scanner

/-- Punctuation is read from its own character. -/
theorem Tiles.char_mem {offset : Nat} {cs : List Char} {ts : List Token} (h : Tiles offset cs ts)
    {t : Token} (ht : t ∈ ts) {p : Punct} (hv : t.value = .punct p) : p.char ∈ cs := by
  induction h with
  | nil offset => simp at ht
  | blank _ _ ih => exact List.mem_cons_of_mem _ (ih ht)
  | token _ _ hread _ ih =>
    rcases List.mem_cons.mp ht with rfl | ht
    · cases hv
      cases hread
      simp
    · exact List.mem_append_right _ (ih ht)

/-- The state behind an open angle bracket at the start of a text. -/
def Scanner.opened : Scanner :=
  ⟨.standard, 1, [.angle], .nothing, true⟩

/-- The tokens between angle brackets at the start of a text. -/
def enclosedTokens (x : String) : List Token :=
  Scanner.opened.read x.toList

theorem enclosedTokens_tiles (x : String) : Tiles 1 x.toList (enclosedTokens x) :=
  (Scanner.Tracks.ofNothing (s := Scanner.opened) rfl).tiles x.toList

theorem enclosedTokens_endBy (x : String) : EndBy (x.toList.length + 1) (enclosedTokens x) := by
  intro t ht
  have hb := (enclosedTokens_tiles x).bounds t ht
  omega

theorem enclosedTokens_not_closeAngle {x : String} (hclose : '>' ∉ x.toList) :
    ∀ t ∈ enclosedTokens x, t.isPunct .closeAngle = false := by
  intro t ht
  cases hp : t.isPunct .closeAngle with
  | false => rfl
  | true => exact absurd ((enclosedTokens_tiles x).char_mem ht (Token.isPunct_iff.mp hp)) hclose

/-- Behind a closed angle bracket a text is read as if it stood alone. -/
theorem scan_enclosed {x : String} (hopen : '<' ∉ x.toList) (hclose : '>' ∉ x.toList)
    (hlast : x.toList.getLast? ≠ some escapeChar) (y : String) :
    scan .standard ("<" ++ x ++ ">" ++ y) =
      ⟨.punct .openAngle, 0, 1⟩ :: (enclosedTokens x ++
        ⟨.punct .closeAngle, x.toList.length + 1, x.toList.length + 2⟩ ::
          (scan .standard y).map (Token.shift (x.toList.length + 2))) := by
  have hfits : Scanner.opened.Fits := trivial
  have hangle := Scanner.advance_angleLast hfits .angle hopen hclose
  have hd : (Scanner.opened.advance x.toList).2.dialect = .standard :=
    Scanner.advance_dialect hfits x.toList
  have ho : (Scanner.opened.advance x.toList).2.offset = x.toList.length + 1 := by
    rw [Scanner.advance_offset hfits]
    exact Nat.add_comm 1 _
  have hescape := Scanner.advance_afterEscape hfits rfl hlast
  have hstep := Scanner.step_closeAngle hangle.mem hescape
  rw [hangle.leave_angle] at hstep
  have hsplit : ("<" ++ x ++ ">" ++ y).toList = '<' :: (x.toList ++ '>' :: y.toList) := by
    simp [String.toList_append]
  have hfirst : (Scanner.initial .standard).step '<' =
      ([⟨.punct .openAngle, 0, 1⟩], Scanner.opened) := rfl
  have hnext : (Scanner.opened.advance x.toList).2.next [] =
      (Scanner.initial .standard).shift (x.toList.length + 2) true := by
    simp [Scanner.next, hd, ho, Scanner.shift, Scanner.initial, Pending.shift]
  have hclosed : (Scanner.opened.advance x.toList).2.punctToken .closeAngle =
      ⟨.punct .closeAngle, x.toList.length + 1, x.toList.length + 2⟩ := by
    rw [Scanner.punctToken, ho]
  have hlater := @Scanner.read_shift (x.toList.length + 2) true (.initial .standard) trivial
    (fun _ => by simp [Scanner.initial]) y.toList
  rw [scan_eq_read, hsplit, Scanner.read_cons, hfirst, Scanner.read_append, Scanner.read_cons,
    hstep, Scanner.emit, hnext, hlater]
  rw [hclosed, ← scan_eq_read]
  simp [enclosedTokens, Scanner.read]

theorem scan_behind (dialect : Dialect) (text : String) : Behind (scan dialect text).tail := by
  have hb := (scan_tiles dialect text).bounds
  have hord := (scan_tiles dialect text).ordered
  cases hs : scan dialect text with
  | nil => simp [Behind]
  | cons t ts =>
    rw [hs] at hb hord
    intro u hu
    have ht := hb t (List.mem_cons_self ..)
    have htu := (List.pairwise_cons.mp hord).1 u hu
    omega

theorem length_pos_of_scan_ne_nil {dialect : Dialect} {text : String}
    (h : scan dialect text ≠ []) : 1 ≤ text.toList.length := by
  obtain ⟨t, ts, hs⟩ := List.exists_cons_of_ne_nil h
  have hb := (scan_tiles dialect text).bounds t (by rw [hs]; exact List.mem_cons_self ..)
  omega

open Logged

theorem parseTokens_shift (lenient : Bool) (k : Nat) (dialect : Dialect) (text : String) :
    parseTokens lenient ((scan dialect text).map (Token.shift k)) (text.toList.length + k) =
      (parseTokens lenient (scan dialect text) text.toList.length).shift k := by
  have hg := parseGroup_shifts k lenient (maxNesting - 1)
  have hedge : scan dialect text ≠ [] → 1 ≤ (Edge.inputEnd text.toList.length).offset :=
    length_pos_of_scan_ne_nil
  exact parseExpressions_shift k lenient hg hedge (scan_behind dialect text)

/-- A group in angle brackets is read on its own, and what follows it is read as before. -/
theorem parseTokens_angle (lenient : Bool) {opening closing : Token} {inside rest : List Token}
    (ho : opening.value = .punct .openAngle) (hc : closing.isPunct .closeAngle = true)
    (hi : ∀ t ∈ inside, t.isPunct .closeAngle = false) (length : Nat) :
    parseTokens lenient (opening :: (inside ++ closing :: rest)) length =
      (parseGroup lenient (maxNesting - 1) ⟨inside, .before closing.start⟩).andThen fun es =>
        (parseTokens lenient rest length).andThen fun g => value (.group es :: g) := by
  have hexpr : parseExpression lenient (parseGroup lenient (maxNesting - 1)) (.inputEnd length)
      opening (inside ++ closing :: rest) =
      ⟨do
        let es ← parseGroup lenient (maxNesting - 1) ⟨inside, .before closing.start⟩
        pure (some (.group es)), rest⟩ := by
    simp only [parseExpression, ho, parseAngleGroup, takeUntil_append_cons hi hc,
      dropUntil_append_cons hi hc]
  have hread : ∀ ts, parseTokens lenient ts length =
      parseExpressions lenient (parseGroup lenient (maxNesting - 1)) (.inputEnd length) ts :=
    fun _ => rfl
  rw [hread, hread, parseExpressions_cons, hexpr, bind_def, andThen_assoc]
  simp only [pure_def, value_andThen, Option.toList, List.singleton_append]

theorem giveUp_shift {length : Nat} (h : 1 ≤ length) (k : Nat) (p : Problem) :
    giveUp (length + k) p = (giveUp length p).shift k := by
  have hplace : length + k - 1 = length - 1 + k := by omega
  rw [giveUp, hplace]
  rfl

theorem scan_ne_nil_of_error {options : Options} {text : String} {p : Problem}
    (h : (parseTokens options.allowUnterminated (scan options.dialect text)
      text.toList.length).result = .error p) : scan options.dialect text ≠ [] := by
  intro hn
  rw [hn, show parseTokens options.allowUnterminated [] text.toList.length = value [] from
    parseExpressions_nil _ _ _] at h
  cases h

theorem compile_error {options : Options} {text : String} {p : Problem}
    (h : (parseTokens options.allowUnterminated (scan options.dialect text)
      text.toList.length).result = .error p) :
    (compile options text).tree = none ∧
      (compile options text).diagnostics = (parseTokens options.allowUnterminated
        (scan options.dialect text) text.toList.length).log ++ [giveUp text.toList.length p] := by
  simp only [compile, h, and_self]

theorem compile_ok {options : Options} {text : String} {g : List Expr}
    (h : (parseTokens options.allowUnterminated (scan options.dialect text)
      text.toList.length).result = .ok g) :
    (compile options text).tree = some g ∧
      (compile options text).diagnostics = (parseTokens options.allowUnterminated
        (scan options.dialect text) text.toList.length).log := by
  simp only [compile, h, and_self]

/-- A text that parses like `y` behind `k` characters, with expressions and reports put in front,
compiles like it. -/
theorem compile_behind {options : Options} {text y : String} {k : Nat} {front : List Expr}
    {reports : List Diagnostic} (hlength : text.toList.length = y.toList.length + k)
    (hparse : parseTokens options.allowUnterminated (scan options.dialect text) text.toList.length =
      ⟨reports ++ (parseTokens options.allowUnterminated (scan options.dialect y)
          y.toList.length).log.map (Diagnostic.shift k),
        (parseTokens options.allowUnterminated (scan options.dialect y)
          y.toList.length).result.map (front ++ ·)⟩) :
    (compile options text).tree = (compile options y).tree.map (front ++ ·) ∧
      (compile options text).diagnostics =
        reports ++ (compile options y).diagnostics.map (Diagnostic.shift k) := by
  cases hy : (parseTokens options.allowUnterminated (scan options.dialect y)
      y.toList.length).result with
  | error p =>
    obtain ⟨htree, hdiag⟩ := compile_error hy
    rw [hy] at hparse
    obtain ⟨htree', hdiag'⟩ := @compile_error options text p (by rw [hparse]; rfl)
    have hpos := length_pos_of_scan_ne_nil (scan_ne_nil_of_error hy)
    refine ⟨by rw [htree, htree']; rfl, ?_⟩
    rw [hdiag', hdiag, hparse, hlength, giveUp_shift hpos, List.map_append, List.append_assoc]
    rfl
  | ok g =>
    obtain ⟨htree, hdiag⟩ := compile_ok hy
    rw [hy] at hparse
    obtain ⟨htree', hdiag'⟩ := @compile_ok options text (front ++ g) (by rw [hparse]; rfl)
    refine ⟨by rw [htree, htree']; rfl, ?_⟩
    rw [hdiag', hdiag, hparse]

/-- Mistakes inside angle brackets stay inside them: but for nesting that is too deep, the group
and what is said about it are the same whatever follows, and what follows is compiled as if it
stood alone. -/
theorem compile_enclosed (allow : Bool) {x : String} (hopen : '<' ∉ x.toList)
    (hclose : '>' ∉ x.toList) (hlast : x.toList.getLast? ≠ some escapeChar) :
    (∀ y, (compile ⟨.standard, allow⟩ ("<" ++ x ++ ">" ++ y)).tree = none ∧
      ∃ d, (compile ⟨.standard, allow⟩ ("<" ++ x ++ ">" ++ y)).diagnostics.getLast? = some d ∧
        d.code = some .nestingTooDeep) ∨
    ∃ gx Dx, (∀ d ∈ Dx, ∃ span, d.span = some span ∧
        span.start + span.length ≤ x.toList.length + 1) ∧
      ∀ y, (compile ⟨.standard, allow⟩ ("<" ++ x ++ ">" ++ y)).tree =
          (compile ⟨.standard, allow⟩ y).tree.map (.group gx :: ·) ∧
        (compile ⟨.standard, allow⟩ ("<" ++ x ++ ">" ++ y)).diagnostics =
          Dx ++ (compile ⟨.standard, allow⟩ y).diagnostics.map
            (Diagnostic.shift (x.toList.length + 2)) := by
  let inside := parseGroup allow (maxNesting - 1)
    ⟨enclosedTokens x, .before (x.toList.length + 1)⟩
  have hconfined : inside.Confined (enclosedTokens x) (x.toList.length + 1) _ :=
    parseGroup_confines (enclosedTokens_endBy x) allow (maxNesting - 1)
      ⟨enclosedTokens x, .before (x.toList.length + 1)⟩ (List.Subset.refl _) (Nat.le_refl _)
  have hlength : ∀ y : String, ("<" ++ x ++ ">" ++ y).toList.length =
      y.toList.length + (x.toList.length + 2) := by
    intro y
    simp only [String.toList_append, List.length_append]
    simp
    omega
  have hparse : ∀ y : String,
      parseTokens allow (scan .standard ("<" ++ x ++ ">" ++ y)) ("<" ++ x ++ ">" ++ y).toList.length =
        inside.andThen fun es =>
          ((parseTokens allow (scan .standard y) y.toList.length).shift
            (x.toList.length + 2)).andThen fun g => value (.group es :: g) := by
    intro y
    rw [scan_enclosed hopen hclose hlast, hlength, ← parseTokens_shift]
    exact parseTokens_angle allow rfl rfl (enclosedTokens_not_closeAngle hclose) _
  cases hr : inside.result with
  | error p =>
    left
    intro y
    obtain rfl := (hconfined.fatal p hr).eq_nestingTooDeep
    obtain ⟨htree, hdiag⟩ := @compile_error ⟨.standard, allow⟩ ("<" ++ x ++ ">" ++ y) _
      (by rw [hparse y, andThen, hr])
    have hl := congrArg List.getLast? hdiag
    rw [List.getLast?_concat] at hl
    exact ⟨htree, _, hl, rfl⟩
  | ok gx =>
    right
    refine ⟨gx, inside.log, ?_, ?_⟩
    · intro d hd
      obtain ⟨p, span, rfl, hfound⟩ := hconfined.reported d hd
      exact ⟨span, rfl, hfound.inside⟩
    · intro y
      refine @compile_behind ⟨.standard, allow⟩ _ y _ [.group gx] _ (hlength y) ?_
      rw [hparse y, andThen, hr]
      cases hy : (parseTokens allow (scan .standard y) y.toList.length).result with
      | error p => simp [andThen, Logged.shift, hy, Except.map]
      | ok g => simp [andThen, Logged.shift, hy, Except.map, value]

theorem compile_enclosed_unfinished :
    (∀ y, (compile ⟨.standard, false⟩ ("<" ++ "f(?1:(!" ++ ">" ++ y)).tree = none ∧
      ∃ d, (compile ⟨.standard, false⟩ ("<" ++ "f(?1:(!" ++ ">" ++ y)).diagnostics.getLast? = some d ∧
        d.code = some .nestingTooDeep) ∨
    ∃ gx Dx, (∀ d ∈ Dx, ∃ span, d.span = some span ∧ span.start + span.length ≤ 8) ∧
      ∀ y, (compile ⟨.standard, false⟩ ("<" ++ "f(?1:(!" ++ ">" ++ y)).tree =
          (compile ⟨.standard, false⟩ y).tree.map (.group gx :: ·) ∧
        (compile ⟨.standard, false⟩ ("<" ++ "f(?1:(!" ++ ">" ++ y)).diagnostics =
          Dx ++ (compile ⟨.standard, false⟩ y).diagnostics.map (Diagnostic.shift 9) :=
  compile_enclosed false (by decide) (by decide) (by decide)

end CommandTemplate
