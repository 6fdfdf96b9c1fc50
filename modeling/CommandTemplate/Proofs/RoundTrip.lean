import CommandTemplate.Proofs.Mistakes
import CommandTemplate.Proofs.Recognition
import CommandTemplate.Proofs.Rescan

namespace CommandTemplate

open Logged Scanner

section

variable {dialect : Dialect} {marker : Marker} {below : List Mode} {p : Punct} {cs : List Char}

/-- A range is read back if its second bound is. -/
theorem valuesAt_range {n : Nat} {last : Option Nat} {v : TokenValue} (hn : n < integerLimit)
    (hlast : valuesAt dialect true (.body marker :: below)
        (Substitution.renderBound last ++ p.char :: cs) =
      v :: valuesAt dialect true (.body marker :: below) (p.char :: cs)) :
    valuesAt dialect true (.body marker :: below)
        ((Substitution.range n last).render ++ p.char :: cs) =
      [.integer n, .punct .hyphen, v] ++
        valuesAt dialect true (.body marker :: below) (p.char :: cs) := by
  have hr : reads dialect (.body marker :: below) .hyphen = true := by simp [reads]
  have ho : Punct.hyphen ≠ .openParen := by simp
  have hafter : afterPunct (.body marker :: below) .hyphen = .body marker :: below := rfl
  have hfirst := @valuesAt_integer dialect true marker below n hn _ hr ho
    (Substitution.renderBound last ++ p.char :: cs)
  rw [valuesAt_punct hr ho, hafter, hlast] at hfirst
  simpa [Substitution.range, Substitution.render, Punct.char] using hfirst

/-- The body of a substitution is read back up to the token that ends it. -/
theorem DerivesBody.reread {vs : List TokenValue} {s : Substitution} (h : DerivesBody vs s)
    {next : List TokenValue} (hs : Stream dialect true (.body marker :: below) (vs ++ next))
    (hr : reads dialect (.body marker :: below) p = true) (ho : p ≠ .openParen) :
    (∃ ws, DerivesBody ws s ∧
      valuesAt dialect true (.body marker :: below) (s.render ++ p.char :: cs) =
        ws ++ valuesAt dialect true (.body marker :: below) (p.char :: cs)) ∧
    Stream dialect true (.body marker :: below) next := by
  have hopen := @valuesAt_openBound dialect true marker below p hr ho cs
  cases h with
  | @number n hn =>
    cases hs with
    | integer hlimit hnext => exact ⟨⟨_, .number hn, valuesAt_integer hlimit hr ho cs⟩, hnext⟩
  | @all name hname =>
    cases hs with
    | identifier hi hm hnext => exact ⟨⟨_, @DerivesBody.all openBound rfl, hopen⟩, hnext⟩
  | @onward n hn =>
    cases hs with
    | integer hlimit hs =>
      cases hs with
      | punct p' hnext =>
        exact ⟨⟨_, @DerivesBody.toEnd n openBound hn rfl, @valuesAt_range _ _ _ _ _ _ none _ hlimit hopen⟩,
          hnext⟩
  | @toEnd n name hn hname =>
    cases hs with
    | integer hlimit hs =>
      cases hs with
      | punct p' hs =>
        cases hs with
        | identifier hi hm hnext =>
          exact ⟨⟨_, @DerivesBody.toEnd n openBound hn rfl,
            @valuesAt_range _ _ _ _ _ _ none _ hlimit hopen⟩, hnext⟩
  | @range n m hn hm =>
    cases hs with
    | integer hlimit hs =>
      cases hs with
      | punct p' hs =>
        cases hs with
        | integer hlimit' hnext =>
          have hlast := @valuesAt_integer dialect true marker below m hlimit' p hr ho cs
          exact ⟨⟨_, .range hn hm, @valuesAt_range _ _ _ _ _ _ (some m) _ hlimit hlast⟩, hnext⟩

end

theorem DerivesBody.not_mem_closeAngle {vs : List TokenValue} {s : Substitution}
    (h : DerivesBody vs s) : .punct .closeAngle ∉ vs := by
  cases h <;> simp

/-- A substitution is read back up to the end of its body. -/
theorem DerivesBody.reread_opened {us : List TokenValue} {s : Substitution} (h : DerivesBody us s)
    {dialect : Dialect} {started : Bool} {modes : List Mode} {context : Context}
    (hf : Frame dialect modes context) {marker : Marker} {p : Punct} {next : List TokenValue}
    (hs : Stream dialect started modes (.punct marker.punct :: (us ++ .punct p :: next)))
    (hr : reads dialect (.body marker :: modes) p = true) (ho : p ≠ .openParen) (cs : List Char) :
    (∃ ws, DerivesBody ws s ∧
      valuesAt dialect started modes (marker.punct.char :: (s.render ++ p.char :: cs)) =
        .punct marker.punct :: (ws ++ .punct p ::
          valuesAt dialect true (afterPunct (.body marker :: modes) p) cs)) ∧
    Stream dialect true (afterPunct (.body marker :: modes) p) next := by
  have hspecial : marker.punct.char ∈ textSpecial := by cases marker <;> decide
  have hclosed : marker.punct ≠ .openParen := by cases marker <;> simp [Marker.punct]
  cases hs with
  | punct _ hs =>
    rw [hf.afterPunct_marker] at hs
    obtain ⟨⟨ws, hw, hvalues⟩, hs⟩ := @DerivesBody.reread _ _ _ _ cs _ _ h _ hs hr ho
    cases hs with
    | punct _ hnext =>
      refine ⟨⟨ws, hw, ?_⟩, hnext⟩
      rw [valuesAt_punct (hf.reads_of_text hspecial) hclosed, hf.afterPunct_marker, hvalues,
        valuesAt_punct hr ho]

theorem meets_call {dialect : Dialect} {modes : List Mode} {context : Context} (name : String)
    (arguments : List (List Expr)) (next : List TokenValue) (cs : List Char) :
    Meets dialect modes context (.identifier name :: next)
      ((Expr.call name arguments).render context ++ cs) := by
  rintro rfl
  exact ⟨_, by simp [Expr.render]; rfl⟩

/-- An expression meets what stands in front of it. -/
theorem DerivesExpr.meets {vs : List TokenValue} {e : Expr} (h : DerivesExpr vs e)
    {dialect : Dialect} {modes : List Mode} {context : Context}
    (hf : Frame dialect modes context) (next : List TokenValue) (cs : List Char) :
    Meets dialect modes context (vs ++ next) (e.render context ++ cs) := by
  cases h with
  | text s => trivial
  | emptyCall name => exact meets_call name _ _ _
  | call name ha => exact meets_call name _ _ _
  | group hg hc => exact ⟨hf.reads_of_text (by decide), by simp, by simp [Expr.render, Punct.char]⟩
  | imperative hb => exact ⟨hf.reads_of_text (by decide), by simp, by simp [Expr.render, Punct.char]⟩
  | optional hb => exact ⟨hf.reads_of_text (by decide), by simp, by simp [Expr.render, Punct.char]⟩
  | literalDefault text hb =>
    exact ⟨hf.reads_of_text (by decide), by simp, by simp [Expr.render, Punct.char]⟩
  | groupDefault hb hg =>
    exact ⟨hf.reads_of_text (by decide), by simp, by simp [Expr.render, Punct.char]⟩

/-- The text of a group meets what stands in front of its tokens. -/
def GroupMeets (vs : List TokenValue) (es : List Expr) : Prop :=
  ∀ ⦃dialect modes context next cs⦄, Frame dialect modes context →
    Meets dialect modes context next cs →
    Meets dialect modes context (vs ++ next) (Expr.renderGroup context es ++ cs)

theorem DerivesGroup.meets {vs : List TokenValue} {es : List Expr} (h : DerivesGroup vs es) :
    GroupMeets vs es := by
  intro dialect modes context next cs hf hm
  cases h with
  | nil => exact hm
  | cons he hes =>
    rw [List.append_assoc, Expr.renderGroup, List.append_assoc]
    exact he.meets hf _ _

theorem afterPunct_closeAngle (below : List Mode) :
    afterPunct (.angle :: below) .closeAngle = below := by
  simp [afterPunct, leave]

theorem afterPunct_closeParen (below : List Mode) :
    afterPunct (.paren :: below) .closeParen = below := by
  simp [afterPunct, leave]

theorem afterPunct_colon (marker : Marker) (below : List Mode) :
    afterPunct (.body marker :: below) .colon = .defaultStart :: below := rfl

theorem DerivesGroup.eq_nil_iff {vs : List TokenValue} {es : List Expr} (h : DerivesGroup vs es) :
    vs = [] ↔ es = [] := by
  cases h with
  | nil => simp
  | cons he hes => cases he <;> simp

theorem DerivesArguments.exists_cons {vs : List TokenValue} {as : List (List Expr)}
    (h : DerivesArguments vs as) : ∃ a rest, as = a :: rest := by
  cases h with
  | last hne ha => exact ⟨_, _, rfl⟩
  | more hne ha has => exact ⟨_, _, rfl⟩

/-- Where the tokens `vs` stood, the text of the expression yields a derivation of it again, and
what follows is a stream as before. -/
def RereadsExpr (vs : List TokenValue) (e : Expr) : Prop :=
  ∀ ⦃dialect started modes context next cs⦄, Frame dialect modes context →
    Stream dialect started modes (vs ++ next) → Meets dialect modes context next cs →
    (∃ ws, DerivesExpr ws e ∧ (.punct .closeAngle ∈ ws → .punct .closeAngle ∈ vs) ∧
      valuesAt dialect started modes (e.render context ++ cs) =
        ws ++ valuesAt dialect true modes cs) ∧
    Stream dialect true modes next

def RereadsGroup (vs : List TokenValue) (es : List Expr) : Prop :=
  ∀ ⦃dialect started modes context next cs⦄, Frame dialect modes context →
    Stream dialect started modes (vs ++ next) → Meets dialect modes context next cs →
    ∃ later, (∃ ws, DerivesGroup ws es ∧ (.punct .closeAngle ∈ ws → .punct .closeAngle ∈ vs) ∧
      valuesAt dialect started modes (Expr.renderGroup context es ++ cs) =
        ws ++ valuesAt dialect later modes cs) ∧
    Stream dialect later modes next

/-- Arguments are read again together with the parenthesis that closes them. -/
def RereadsArguments (vs : List TokenValue) (as : List (List Expr)) : Prop :=
  ∀ ⦃dialect started below next cs⦄,
    Stream dialect started (.paren :: below) (vs ++ .punct .closeParen :: next) →
    (∃ ws, DerivesArguments ws as ∧ (.punct .closeAngle ∈ ws → .punct .closeAngle ∈ vs) ∧
      valuesAt dialect started (.paren :: below) (Expr.renderArguments as ++ ')' :: cs) =
        ws ++ .punct .closeParen :: valuesAt dialect true below cs) ∧
    Stream dialect true below next

/-- A group is read again together with the punctuation that ends it. -/
theorem RereadsGroup.until {vs : List TokenValue} {es : List Expr} (h : RereadsGroup vs es)
    {dialect : Dialect} {started : Bool} {modes : List Mode}
    (hf : Frame dialect modes .expression) {p : Punct} (hp : p.char ∈ expressionSpecial)
    (ho : p ≠ .openParen) {next : List TokenValue}
    (hs : Stream dialect started modes (vs ++ .punct p :: next)) (cs : List Char) :
    (∃ ws, DerivesGroup ws es ∧ (.punct .closeAngle ∈ ws → .punct .closeAngle ∈ vs) ∧
      valuesAt dialect started modes (Expr.renderGroup .expression es ++ p.char :: cs) =
        ws ++ .punct p :: valuesAt dialect true (afterPunct modes p) cs) ∧
    Stream dialect true (afterPunct modes p) next := by
  have hr : reads dialect modes p = true := hf.reads hp
  have hm : Meets dialect modes .expression (.punct p :: next) (p.char :: cs) := ⟨hr, ho, rfl⟩
  obtain ⟨later, ⟨ws, hw, hangle, hvalues⟩, hs⟩ := h hf hs hm
  rw [valuesAt_punct hr ho] at hvalues
  cases hs with
  | punct _ hnext => exact ⟨⟨ws, hw, hangle, hvalues⟩, hnext⟩

theorem rereadsExpr_text (s : String) : RereadsExpr [.text s] (.literal s) := by
  intro dialect started modes context next cs hf hs hm
  have htext := hf.valuesAt_text hs hm
  cases hs with
  | text _ hnext =>
    refine ⟨⟨_, .text s, id, ?_⟩, hnext⟩
    simpa [Expr.render] using htext

theorem valuesAt_emptyCall {dialect : Dialect} {started : Bool} {modes : List Mode}
    (hf : Frame dialect modes .expression) {name : String}
    (hi : isIdentifier name.toList = true) (cs : List Char) :
    valuesAt dialect started modes ((Expr.call name []).render .expression ++ cs) =
      [.identifier name, .punct .openParen, .punct .closeParen] ++
        valuesAt dialect true modes cs := by
  have hcall := @Frame.valuesAt_call dialect started modes hf name hi (')' :: cs)
  have hclose := @valuesAt_punct dialect true (.paren :: modes) .closeParen rfl (by simp) cs
  rw [show ')' = Punct.closeParen.char from rfl, hclose, afterPunct_closeParen] at hcall
  simpa [Expr.render, Expr.renderArguments, Punct.char] using hcall

theorem rereadsExpr_emptyCall (name : String) :
    RereadsExpr [.identifier name, .punct .openParen, .punct .closeParen] (.call name []) := by
  intro dialect started modes context next cs hf hs hm
  cases hs with
  | identifier hi hroot hs =>
    obtain rfl := hf.expression hroot
    cases hs with
    | punct _ hs =>
      rw [afterPunct_openParen hf.head_ne.2.1] at hs
      cases hs with
      | punct _ hnext =>
        rw [afterPunct_closeParen] at hnext
        exact ⟨⟨_, .emptyCall name, id, valuesAt_emptyCall hf hi cs⟩, hnext⟩

theorem rereadsExpr_call (name : String) {vs : List TokenValue} {as : List (List Expr)}
    (h : RereadsArguments vs as) :
    RereadsExpr (.identifier name :: .punct .openParen :: (vs ++ [.punct .closeParen]))
      (.call name as) := by
  intro dialect started modes context next cs hf hs hm
  rw [List.cons_append, List.cons_append, List.append_assoc] at hs
  cases hs with
  | identifier hi hroot hs =>
    obtain rfl := hf.expression hroot
    have hcall := @Frame.valuesAt_call dialect started modes hf name hi
      (Expr.renderArguments as ++ ')' :: cs)
    cases hs with
    | punct _ hs =>
      rw [afterPunct_openParen hf.head_ne.2.1] at hs
      obtain ⟨⟨ws, hw, hangle, hvalues⟩, hnext⟩ := @h _ _ _ _ cs hs
      rw [hvalues] at hcall
      refine ⟨⟨_, .call name hw, ?_, ?_⟩, hnext⟩
      · simpa using hangle
      · simpa [Expr.render] using hcall

theorem rereadsExpr_group {vs : List TokenValue} {es : List Expr} (h : RereadsGroup vs es)
    (hc : .punct .closeAngle ∉ vs) :
    RereadsExpr (.punct .openAngle :: (vs ++ [.punct .closeAngle])) (.group es) := by
  intro dialect started modes context next cs hf hs hm
  rw [List.cons_append, List.append_assoc] at hs
  have hopen := @valuesAt_punct dialect started modes .openAngle (hf.reads_of_text (by decide))
    (by simp) (Expr.renderGroup .expression es ++ Punct.closeAngle.char :: cs)
  have hafter : afterPunct modes .openAngle = .angle :: modes := rfl
  cases hs with
  | punct _ hs =>
    rw [hafter] at hs hopen
    obtain ⟨⟨ws, hw, hangle, hvalues⟩, hnext⟩ := h.until (.angle modes) (by decide) (by simp) hs cs
    rw [afterPunct_closeAngle] at hvalues hnext
    rw [hvalues] at hopen
    refine ⟨⟨_, .group hw fun hc' => hc (hangle hc'), by simp, ?_⟩, hnext⟩
    simpa [Expr.render, Punct.char] using hopen

theorem rereadsExpr_imperative {vs : List TokenValue} {s : Substitution} (h : DerivesBody vs s) :
    RereadsExpr (.punct .exclamation :: (vs ++ [.punct .exclamation])) (.imperative s) := by
  intro dialect started modes context next cs hf hs hm
  rw [List.cons_append, List.append_assoc] at hs
  obtain ⟨⟨ws, hw, hvalues⟩, hnext⟩ :=
    @DerivesBody.reread_opened _ _ h _ _ _ _ hf .imperative .exclamation _ hs rfl (by simp) cs
  refine ⟨⟨_, .imperative hw, ?_, ?_⟩, hnext⟩
  · simp [hw.not_mem_closeAngle]
  · simpa [Expr.render, Punct.char, Marker.punct, afterPunct] using hvalues

theorem rereadsExpr_optional {vs : List TokenValue} {s : Substitution} (h : DerivesBody vs s) :
    RereadsExpr (.punct .question :: (vs ++ [.punct .question])) (.optional s none) := by
  intro dialect started modes context next cs hf hs hm
  rw [List.cons_append, List.append_assoc] at hs
  obtain ⟨⟨ws, hw, hvalues⟩, hnext⟩ :=
    @DerivesBody.reread_opened _ _ h _ _ _ _ hf .optional .question _ hs rfl (by simp) cs
  refine ⟨⟨_, .optional hw, ?_, ?_⟩, hnext⟩
  · simp [hw.not_mem_closeAngle]
  · simpa [Expr.render, Punct.char, Marker.punct, afterPunct] using hvalues

theorem rereadsExpr_literalDefault {vs : List TokenValue} {s : Substitution} (text : String)
    (h : DerivesBody vs s) :
    RereadsExpr (.punct .question :: (vs ++ [.punct .colon, .text text, .punct .question]))
      (.optional s (some (.literal text))) := by
  intro dialect started modes context next cs hf hs hm
  rw [List.cons_append, List.append_assoc] at hs
  obtain ⟨⟨ws, hw, hvalues⟩, hs⟩ := @DerivesBody.reread_opened _ _ h _ _ _ _ hf .optional .colon
    _ hs rfl (by simp) (escapeDefault text.toList ++ '?' :: cs)
  rw [afterPunct_colon] at hs hvalues
  rw [valuesAt_default hs cs] at hvalues
  cases hs with
  | text _ hs =>
    cases hs with
    | punct _ hnext =>
      refine ⟨⟨_, .literalDefault text hw, ?_, ?_⟩, hnext⟩
      · simp [hw.not_mem_closeAngle]
      · simpa [Expr.render, Punct.char, Marker.punct] using hvalues

theorem rereadsExpr_groupDefault {us vs : List TokenValue} {s : Substitution} {es : List Expr}
    (hb : DerivesBody us s) (h : RereadsGroup vs es) :
    RereadsExpr (.punct .question :: (us ++ .punct .colon :: .punct .openParen ::
        (vs ++ [.punct .closeParen, .punct .question])))
      (.optional s (some (.group es))) := by
  intro dialect started modes context next cs hf hs hm
  simp only [List.cons_append, List.append_assoc] at hs
  obtain ⟨⟨us', hu, hvalues⟩, hs⟩ := @DerivesBody.reread_opened _ _ hb _ _ _ _ hf .optional .colon
    _ hs rfl (by simp)
    ('(' :: (Expr.renderGroup .expression es ++ Punct.closeParen.char :: Punct.question.char :: cs))
  rw [afterPunct_colon] at hs hvalues
  cases hs with
  | punct _ hs =>
    have hafter : afterPunct (.defaultStart :: modes) .openParen =
        .paren :: .afterDefault :: modes := rfl
    rw [hafter] at hs
    obtain ⟨⟨ws, hw, hangle, hinner⟩, hs⟩ := h.until (.paren _) (by decide) (by simp) hs
      (Punct.question.char :: cs)
    rw [afterPunct_closeParen] at hs hinner
    rw [valuesAt_punct rfl (by simp)] at hinner
    rw [valuesAt_defaultStart, hinner] at hvalues
    cases hs with
    | punct _ hnext =>
      refine ⟨⟨_, .groupDefault hu hw, ?_, ?_⟩, hnext⟩
      · simp only [List.mem_cons, List.mem_append, hu.not_mem_closeAngle]
        grind
      · simpa [Expr.render, Punct.char, Marker.punct, afterPunct] using hvalues

theorem rereadsGroup_cons {us vs : List TokenValue} {e : Expr} {es : List Expr}
    (he : RereadsExpr us e) (hes : GroupMeets vs es) (h : RereadsGroup vs es) :
    RereadsGroup (us ++ vs) (e :: es) := by
  intro dialect started modes context next cs hf hs hm
  rw [List.append_assoc] at hs
  obtain ⟨⟨ws, hw, hangle, hvalues⟩, hs⟩ := he hf hs (hes hf hm)
  obtain ⟨later, ⟨ws', hw', hangle', hvalues'⟩, hs⟩ := h hf hs hm
  refine ⟨later, ⟨_, .cons hw hw', ?_, ?_⟩, hs⟩
  · simp only [List.mem_append]
    grind
  · rw [Expr.renderGroup, List.append_assoc, hvalues, hvalues', List.append_assoc]

theorem rereadsArguments_last {vs : List TokenValue} {a : List Expr} (hne : a ≠ [])
    (h : RereadsGroup vs a) : RereadsArguments vs [a] := by
  intro dialect started below next cs hs
  obtain ⟨⟨ws, hw, hangle, hvalues⟩, hnext⟩ := h.until (.paren below) (by decide) (by simp) hs cs
  rw [afterPunct_closeParen] at hvalues hnext
  exact ⟨⟨ws, .last (mt hw.eq_nil_iff.mp hne) hw, hangle, hvalues⟩, hnext⟩

theorem rereadsArguments_more {us vs : List TokenValue} {a : List Expr} {as : List (List Expr)}
    (hne : a ≠ []) (h : RereadsGroup us a) (hrest : RereadsArguments vs as) :
    RereadsArguments (us ++ .punct .comma :: vs) (a :: as) := by
  intro dialect started below next cs hs
  have hafter : afterPunct (.paren :: below) .comma = .paren :: below := rfl
  rw [List.append_assoc] at hs
  obtain ⟨⟨ws, hw, hangle, hvalues⟩, hs⟩ := h.until (.paren below) (by decide) (by simp) hs
    (Expr.renderArguments as ++ ')' :: cs)
  rw [hafter] at hvalues hs
  obtain ⟨⟨ws', hw', hangle', hvalues'⟩, hnext⟩ := @hrest _ _ _ _ cs hs
  refine ⟨⟨_, .more (mt hw.eq_nil_iff.mp hne) hw hw', ?_, ?_⟩, hnext⟩
  · simp only [List.mem_append, List.mem_cons]
    grind
  · rw [hvalues'] at hvalues
    obtain ⟨b, rest, rfl⟩ := hw'.exists_cons
    simpa [Expr.renderArguments, Punct.char] using hvalues

mutual

/-- Every derivation is read again from the text of its tree. -/
theorem DerivesExpr.rereads {vs : List TokenValue} {e : Expr} (h : DerivesExpr vs e) :
    RereadsExpr vs e := by
  cases h with
  | text s => exact rereadsExpr_text s
  | emptyCall name => exact rereadsExpr_emptyCall name
  | call name ha => exact rereadsExpr_call name ha.rereads
  | group hg hc => exact rereadsExpr_group hg.rereads hc
  | imperative hb => exact rereadsExpr_imperative hb
  | optional hb => exact rereadsExpr_optional hb
  | literalDefault text hb => exact rereadsExpr_literalDefault text hb
  | groupDefault hb hg => exact rereadsExpr_groupDefault hb hg.rereads

theorem DerivesGroup.rereads {vs : List TokenValue} {es : List Expr} (h : DerivesGroup vs es) :
    RereadsGroup vs es := by
  cases h with
  | nil =>
    intro dialect started modes context next cs hf hs hm
    exact ⟨started, ⟨[], .nil, id, rfl⟩, hs⟩
  | cons he hes => exact rereadsGroup_cons he.rereads hes.meets hes.rereads

theorem DerivesArguments.rereads {vs : List TokenValue} {as : List (List Expr)}
    (h : DerivesArguments vs as) : RereadsArguments vs as := by
  cases h with
  | last hne ha => exact rereadsArguments_last (mt ha.eq_nil_iff.mpr hne) ha.rereads
  | more hne ha has =>
    exact rereadsArguments_more (mt ha.eq_nil_iff.mpr hne) ha.rereads has.rereads

end

/-- Whatever is reported about a template is an error. -/
theorem compile_severity (options : Options) (text : String) :
    ∀ d ∈ (compile options text).diagnostics, d.severity = .error := by
  intro d hd
  obtain ⟨p, span, rfl, _⟩ := exists_found hd
  rfl

theorem hasErrors_compile_eq_false_iff (options : Options) (text : String) :
    hasErrors (compile options text).diagnostics = false ↔
      (compile options text).diagnostics = [] := by
  constructor
  · intro h
    apply List.eq_nil_iff_forall_not_mem.mpr
    intro d hd
    have hs := List.any_eq_false.mp h d hd
    simp [compile_severity options text d hd] at hs
  · intro h
    rw [h]
    rfl

theorem compile_silent_iff_value (options : Options) (text : String) (g : List Expr) :
    ((compile options text).tree = some g ∧ (compile options text).diagnostics = []) ↔
      parseTokens options.allowUnterminated (scan options.dialect text) text.toList.length =
        value g := by
  rw [Logged.eq_value_iff]
  unfold compile
  dsimp only
  split
  next tree hp => simp [hp]
  next p hp => simp [hp]

theorem exists_tree_of_silent {options : Options} {text : String}
    (h : (compile options text).diagnostics = []) : ∃ g, (compile options text).tree = some g := by
  unfold compile at h ⊢
  dsimp only at h ⊢
  split at h
  next tree _ => exact ⟨tree, rfl⟩
  next => simp at h

theorem compile_silent_iff (dialect : Dialect) (text : String) (g : List Expr) :
    ((compile ⟨dialect, false⟩ text).tree = some g ∧
      (compile ⟨dialect, false⟩ text).diagnostics = []) ↔
    DerivesGroup ((scan dialect text).map Token.value) g ∧ groupNesting g ≤ maxNesting := by
  rw [compile_silent_iff_value]
  exact parseGroup_recognizes maxNesting ⟨scan dialect text, .inputEnd text.toList.length⟩ g

theorem formatTemplate_eq_ok_iff (dialect : Dialect) (text s : String) :
    formatTemplate dialect text = .ok s ↔
      ∃ g, (compile ⟨dialect, false⟩ text).tree = some g ∧
        (compile ⟨dialect, false⟩ text).diagnostics = [] ∧ renderTemplate dialect g = s := by
  rw [← hasErrors_compile_eq_false_iff]
  unfold formatTemplate
  dsimp only
  cases ht : (compile ⟨dialect, false⟩ text).tree with
  | none => simp
  | some g => cases he : hasErrors (compile ⟨dialect, false⟩ text).diagnostics <;> simp

theorem RereadsGroup.derives {dialect : Dialect} {vs : List TokenValue} {g : List Expr}
    (h : RereadsGroup vs g) (hs : Stream dialect false [] vs) :
    DerivesGroup ((scan dialect (renderTemplate dialect g)).map Token.value) g := by
  rw [← List.append_nil vs] at hs
  obtain ⟨later, ⟨ws, hw, _, hvalues⟩, _⟩ := @h _ _ _ _ _ [] .root hs rfl
  have hscan : (scan dialect (renderTemplate dialect g)).map Token.value =
      valuesAt dialect false [] (Expr.renderGroup dialect.root g) := by
    rw [scan_eq_read, renderTemplate, String.toList_ofList]
    rfl
  rw [List.append_nil, valuesAt_nil, List.append_nil] at hvalues
  rw [hscan, hvalues]
  exact hw

/-- A tree that was read from a text is read from its canonical form, too. -/
theorem derivesGroup_renderTemplate {dialect : Dialect} {text : String} {g : List Expr}
    (h : DerivesGroup ((scan dialect text).map Token.value) g) :
    DerivesGroup ((scan dialect (renderTemplate dialect g)).map Token.value) g :=
  h.rereads.derives (scan_stream dialect text)

/-- The canonical form of a template has the same tree as the template, is without mistakes, and
is its own canonical form. -/
theorem formatTemplate_roundTrip {dialect : Dialect} {text s : String}
    (h : formatTemplate dialect text = .ok s) :
    ∃ g, (compile ⟨dialect, false⟩ text).tree = some g ∧
      hasErrors (compile ⟨dialect, false⟩ text).diagnostics = false ∧
      (compile ⟨dialect, false⟩ s).diagnostics = [] ∧
      (compile ⟨dialect, false⟩ s).tree = some g ∧ formatTemplate dialect s = .ok s := by
  obtain ⟨g, htree, hdiag, hrender⟩ := (formatTemplate_eq_ok_iff dialect text s).mp h
  obtain ⟨hderives, hnesting⟩ := (compile_silent_iff dialect text g).mp ⟨htree, hdiag⟩
  have hagain := derivesGroup_renderTemplate hderives
  rw [hrender] at hagain
  obtain ⟨htree', hdiag'⟩ := (compile_silent_iff dialect s g).mpr ⟨hagain, hnesting⟩
  refine ⟨g, htree, ?_, hdiag', htree', ?_⟩
  · rw [hasErrors_compile_eq_false_iff, hdiag]
  · exact (formatTemplate_eq_ok_iff dialect s s).mpr ⟨g, htree', hdiag', hrender⟩

theorem formatTemplate_roundTrip_call :
    formatTemplate .inlineExecution "see f(!n!,?1-:\\(x?)" = .ok "see f(!N!,?1-N:\\(x?)" ∧
      formatTemplate .inlineExecution "see f(!N!,?1-N:\\(x?)" = .ok "see f(!N!,?1-N:\\(x?)" := by
  have hall : DerivesExpr [.punct .exclamation, .identifier "n", .punct .exclamation]
      (.imperative (.single none)) := .imperative (.all rfl)
  have honward : DerivesExpr [.punct .question, .integer 1, .punct .hyphen, .punct .colon,
      .text "(x", .punct .question] (.optional (.range 1 none) (some (.literal "(x"))) :=
    .literalDefault "(x" (.onward (Nat.le_refl 1))
  have harguments :=
    DerivesArguments.more (by simp) (.cons hall .nil) (.last (by simp) (.cons honward .nil))
  have hscan : (scan .inlineExecution "see f(!n!,?1-:\\(x?)").map Token.value =
      [.text "see ", .identifier "f", .punct .openParen, .punct .exclamation, .identifier "n",
        .punct .exclamation, .punct .comma, .punct .question, .integer 1, .punct .hyphen,
        .punct .colon, .text "(x", .punct .question, .punct .closeParen] := by decide
  have hgroup : DerivesGroup ((scan .inlineExecution "see f(!n!,?1-:\\(x?)").map Token.value)
      [.literal "see ", .call "f" [[.imperative (.single none)],
        [.optional (.range 1 none) (some (.literal "(x"))]]] := by
    rw [hscan]
    exact .cons (.text "see ") (.cons (.call "f" harguments) .nil)
  obtain ⟨htree, hdiag⟩ := (compile_silent_iff _ _ _).mpr ⟨hgroup, by decide⟩
  have hrender : renderTemplate .inlineExecution [.literal "see ", .call "f"
      [[.imperative (.single none)], [.optional (.range 1 none) (some (.literal "(x"))]]] =
      "see f(!N!,?1-N:\\(x?)" := by
    have hone : decimal 1 = ['1'] := by simp [decimal]; rfl
    simp only [renderTemplate, Expr.renderGroup, Expr.render, Expr.renderArguments,
      Substitution.render, Substitution.range, Substitution.single, Option.getD, hone]
    rfl
  have h : formatTemplate .inlineExecution "see f(!n!,?1-:\\(x?)" = .ok "see f(!N!,?1-N:\\(x?)" :=
    (formatTemplate_eq_ok_iff _ _ _).mpr ⟨_, htree, hdiag, hrender⟩
  obtain ⟨_, _, _, _, _, hagain⟩ := formatTemplate_roundTrip h
  exact ⟨h, hagain⟩

end CommandTemplate
