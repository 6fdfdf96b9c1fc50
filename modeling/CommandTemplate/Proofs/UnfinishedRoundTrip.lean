import CommandTemplate.Proofs.Completion
import CommandTemplate.Proofs.RoundTrip
import CommandTemplate.Proofs.WellFormed

namespace CommandTemplate

open Logged Scanner

theorem Stream.replicate (dialect : Dialect) (p : Punct) (n : Nat) (started : Bool)
    (modes : List Mode) : Stream dialect started modes (List.replicate n (.punct p)) := by
  induction n generalizing started modes with
  | zero => exact .nil
  | succ n ih => exact .punct p (ih true _)

theorem Precedes.replace {cs : List Char} {us rest tail : List TokenValue} {p q : Punct}
    (h : Precedes cs (us ++ .punct p :: rest)) : Precedes cs (us ++ .punct q :: tail) := by
  cases us with
  | nil => exact h
  | cons v us => cases v <;> exact h

/-- Punctuation may be replaced by other punctuation, with all that follows it. -/
theorem Stream.replace {dialect : Dialect} {started : Bool} {modes : List Mode}
    {us rest tail : List TokenValue} {p q : Punct}
    (h : Stream dialect started modes (us ++ .punct p :: rest))
    (htail : ∀ modes, Stream dialect true modes tail) :
    Stream dialect started modes (us ++ .punct q :: tail) := by
  induction us generalizing started modes with
  | nil => exact .punct q (htail _)
  | cons v us ih =>
    cases h with
    | punct p' h => exact .punct p' (ih h)
    | integer hn h => exact .integer hn (ih h)
    | identifier hi hm h => exact .identifier hi hm (ih h)
    | text hs h =>
      refine .text (fun hb => ?_) (ih h)
      obtain ⟨hne, hunnamed, hunopened, hprecedes⟩ := hs hb
      exact ⟨hne, hunnamed, hunopened, hprecedes.replace⟩

/-- What completes a text that does not end in an escape could have been read from a text. -/
theorem Completes.stream {dialect : Dialect} {text : String} {cut : Bool} {ws : List TokenValue}
    (h : Completes cut ((scan dialect text).map Token.value) ws)
    (hlast : text.toList.getLast? ≠ some escapeChar) : Stream dialect false [] ws := by
  have hs := scan_stream dialect text
  generalize hv : (scan dialect text).map Token.value = vs at h hs
  cases h with
  | whole => exact hs
  | closed _ n =>
    have hfits : (Scanner.initial dialect).Fits := trivial
    have hescape := advance_afterEscape hfits rfl hlast
    rw [← hv]
    exact scan_stream_append dialect text (Stream.replicate dialect .closeParen (n + 1))
      (.inr ⟨hescape, _, _, rfl⟩)
  | comma us n =>
    -- No escape is open in front of the comma, so none is in front of what replaces it.
    exact hs.replace (Stream.replicate dialect .closeParen n true)

theorem LooseGroup.ne_nil {vs : List TokenValue} {es : List Expr} (h : LooseGroup vs es)
    (hne : vs ≠ []) : es ≠ [] := by
  rintro rfl
  cases h
  exact hne rfl

theorem LooseExpr.meets {vs : List TokenValue} {e : Expr} (h : LooseExpr vs e)
    {dialect : Dialect} {modes : List Mode} {context : Context}
    (hf : Frame dialect modes context) (next : List TokenValue) (cs : List Char) :
    Meets dialect modes context (vs ++ next) (e.render context ++ cs) := by
  cases h with
  | strict he => exact he.meets hf next cs
  | name name => exact meets_call name _ _ _
  | call name ha => exact meets_call name _ _ _
  | group hg hc => exact ⟨hf.reads_of_text (by decide), by simp, by simp [Expr.render, Punct.char]⟩
  | groupDefault hb hg =>
    exact ⟨hf.reads_of_text (by decide), by simp, by simp [Expr.render, Punct.char]⟩

theorem LooseGroup.meets {vs : List TokenValue} {es : List Expr} (h : LooseGroup vs es) :
    GroupMeets vs es := by
  intro dialect modes context next cs hf hm
  cases h with
  | nil => exact hm
  | cons he hes =>
    rw [List.append_assoc, Expr.renderGroup, List.append_assoc]
    exact he.meets hf _ _

theorem rereadsExpr_name (name : String) : RereadsExpr [.identifier name] (.call name []) := by
  intro dialect started modes context next cs hf hs hm
  cases hs with
  | identifier hi hroot hnext =>
    obtain rfl := hf.expression hroot
    exact ⟨⟨_, .emptyCall name, by simp, valuesAt_emptyCall hf hi cs⟩, hnext⟩

mutual

theorem LooseExpr.rereads {vs : List TokenValue} {e : Expr} (h : LooseExpr vs e) :
    RereadsExpr vs e := by
  cases h with
  | strict he => exact he.rereads
  | name name => exact rereadsExpr_name name
  | call name ha => exact rereadsExpr_call name ha.rereads
  | group hg hc => exact rereadsExpr_group hg.rereads hc
  | groupDefault hb hg => exact rereadsExpr_groupDefault hb hg.rereads

theorem LooseGroup.rereads {vs : List TokenValue} {es : List Expr} (h : LooseGroup vs es) :
    RereadsGroup vs es := by
  cases h with
  | nil => exact DerivesGroup.nil.rereads
  | cons he hes => exact rereadsGroup_cons he.rereads hes.meets hes.rereads

theorem LooseArguments.rereads {vs : List TokenValue} {as : List (List Expr)}
    (h : LooseArguments vs as) : RereadsArguments vs as := by
  cases h with
  | last hne ha => exact rereadsArguments_last (ha.ne_nil hne) ha.rereads
  | more hne ha has => exact rereadsArguments_more (ha.ne_nil hne) ha.rereads has.rereads

end

theorem parseTokens_relaxed {tokens : List Token} {length : Nat} {g : List Expr}
    (h : parseTokens false tokens length = value g) (allow : Bool) :
    parseTokens allow tokens length = value g := by
  cases allow with
  | false => exact h
  | true => exact (parseGroup_relaxes maxNesting ⟨tokens, .inputEnd length⟩).eq_value h

/-- The tree of a text with cut off calls is written as a text of the strict grammar, unless the
last thing in the text is an escape character. -/
theorem derivesGroup_of_unfinished {dialect : Dialect} {text : String} {g : List Expr}
    (h : parseTokens true (scan dialect text) text.toList.length = value g)
    (hlast : text.toList.getLast? ≠ some escapeChar) :
    DerivesGroup ((scan dialect (renderTemplate dialect g)).map Token.value) g := by
  obtain ⟨ws, hw, hc⟩ := parseGroup_loose maxNesting _ _ h
  exact hw.rereads.derives (hc.stream hlast)

/-- A template without errors in which calls may be cut off is written as a complete one with the
same tree. A call that is cut off behind an escape character is left out, since the parenthesis
that closes it would be taken for an escaped one. -/
theorem compile_renderTemplate {dialect : Dialect} {text : String} {g : List Expr}
    (htree : (compile ⟨dialect, true⟩ text).tree = some g)
    (herrors : hasErrors (compile ⟨dialect, true⟩ text).diagnostics = false)
    (hescape : text.toList.getLast? = some escapeChar →
      (compile ⟨dialect, false⟩ text).diagnostics = [])
    (allow : Bool) :
    hasErrors (compile ⟨dialect, allow⟩ (renderTemplate dialect g)).diagnostics = false ∧
      (compile ⟨dialect, allow⟩ (renderTemplate dialect g)).tree = some g := by
  rw [hasErrors_compile_eq_false_iff] at herrors ⊢
  have hread := (compile_silent_iff_value ⟨dialect, true⟩ text g).mp ⟨htree, herrors⟩
  have hnesting : groupNesting g ≤ maxNesting := (compile_groupFormed htree).nesting
  have hderives : DerivesGroup ((scan dialect (renderTemplate dialect g)).map Token.value) g := by
    by_cases hlast : text.toList.getLast? = some escapeChar
    · -- Then no call is cut off, and the strict reading has the same tree.
      have hsilent := hescape hlast
      obtain ⟨g', hg'⟩ := exists_tree_of_silent hsilent
      have hstrict := (compile_silent_iff_value ⟨dialect, false⟩ text g').mp ⟨hg', hsilent⟩
      have hsame := (parseTokens_relaxed hstrict true).symm.trans hread
      obtain rfl := value_inj.mp hsame
      exact derivesGroup_renderTemplate ((compile_silent_iff dialect text g').mp ⟨hg', hsilent⟩).1
    · exact derivesGroup_of_unfinished hread hlast
  have hstrict := (compile_silent_iff dialect _ g).mpr ⟨hderives, hnesting⟩
  have hagain := parseTokens_relaxed ((compile_silent_iff_value ⟨dialect, false⟩ _ g).mp hstrict)
    allow
  exact ((compile_silent_iff_value ⟨dialect, allow⟩ _ g).mpr hagain).symm

theorem compile_renderTemplate_unfinished :
    (compile ⟨.inlineExecution, true⟩ "g(x,f(a,").tree =
        some [.call "g" [[.literal "x"], [.call "f" [[.literal "a"]]]]] ∧
      hasErrors (compile ⟨.inlineExecution, true⟩ "g(x,f(a,").diagnostics = false ∧
      hasErrors (compile ⟨.inlineExecution, true⟩ (renderTemplate .inlineExecution
        [.call "g" [[.literal "x"], [.call "f" [[.literal "a"]]]]])).diagnostics = false ∧
      (compile ⟨.inlineExecution, true⟩ (renderTemplate .inlineExecution
        [.call "g" [[.literal "x"], [.call "f" [[.literal "a"]]]]])).tree =
        some [.call "g" [[.literal "x"], [.call "f" [[.literal "a"]]]]] := by
  have htree : (compile ⟨.inlineExecution, true⟩ "g(x,f(a,").tree =
      some [.call "g" [[.literal "x"], [.call "f" [[.literal "a"]]]]] := by decide +kernel
  have herrors : hasErrors (compile ⟨.inlineExecution, true⟩ "g(x,f(a,").diagnostics = false := by
    decide +kernel
  exact ⟨htree, herrors, compile_renderTemplate htree herrors (by decide) true⟩

/-- The parenthesis that is put behind an open escape becomes part of the literal. -/
theorem compile_renderTemplate_open_escape :
    (compile ⟨.inlineExecution, true⟩ "f(a\\").tree = some [.call "f" [[.literal "a\\"]]] ∧
      hasErrors (compile ⟨.inlineExecution, true⟩ "f(a\\").diagnostics = false ∧
      (compile ⟨.inlineExecution, true⟩
        (renderTemplate .inlineExecution [.call "f" [[.literal "a\\"]]])).tree =
          some [.call "f" [[.literal "a)"]]] ∧
      (compile ⟨.inlineExecution, true⟩
        (renderTemplate .inlineExecution [.call "f" [[.literal "a\\"]]])).tree ≠
          some [.call "f" [[.literal "a\\"]]] := by
  refine ⟨?_, ?_, ?_, ?_⟩ <;> decide +kernel

end CommandTemplate
