import CommandTemplate.Diagnostic.Report
import CommandTemplate.Proofs.ReportedLocations
import CommandTemplate.Proofs.WellFormed

namespace CommandTemplate

/-- What a text holds between its line feeds. There is always one line. -/
def textLines (text : String) : List String :=
  (splitChars '\n' text.toList).map String.ofList

theorem textLines_append (a b : String) :
    textLines (a ++ "\n" ++ b) = textLines a ++ textLines b := by
  have h : (a ++ "\n" ++ b).toList = a.toList ++ '\n' :: b.toList := by simp
  rw [textLines, h, splitChars_append_sep, List.map_append]
  rfl

theorem textLines_of_not_mem {text : String} (h : '\n' ∉ text.toList) : textLines text = [text] := by
  rw [textLines, splitChars_of_not_mem h, List.map_cons, String.ofList_toList, List.map_nil]

theorem textLines_joinWith {texts : List String} (h : texts ≠ []) :
    textLines (joinWith "\n" texts) = texts.flatMap textLines := by
  have hsplit := splitChars_joinWith '\n' h
  rw [textLines, show "\n" = String.singleton '\n' from rfl, hsplit, List.map_flatMap]
  rfl

/-- The first line of an entry: what is wrong, and at which column. -/
def headline (source : String) (p : Problem) (span : Span) : String :=
  "error[" ++ p.code.id ++ "] " ++ source ++ ":1:" ++ natText (span.start + 1) ++ " " ++
    p.description

/-- The second line of an entry: the text. -/
def excerptLine (text : String) : String :=
  "  | " ++ oneLine text

/-- The third line of an entry: carets under the stretch, one if it is a place. -/
def caretLine (span : Span) : String :=
  "  | " ++ String.ofList (List.replicate span.start ' ') ++
    String.ofList (List.replicate (max span.length 1) '^')

theorem oneLine_not_mem (text : String) : '\n' ∉ (oneLine text).toList := by
  simp only [oneLine, String.toList_ofList, List.mem_map, not_exists, not_and]
  intro c _ hc
  split at hc
  next => cases hc
  next h => simp [hc] at h

theorem excerptLine_not_mem (text : String) : '\n' ∉ (excerptLine text).toList := by
  simpa [excerptLine] using oneLine_not_mem text

theorem caretLine_not_mem (span : Span) : '\n' ∉ (caretLine span).toList := by
  simp [caretLine]

theorem label_ofProblem (p : Problem) (span : Span) :
    (Diagnostic.ofProblem p span).label ++ " " = "error[" ++ p.code.id ++ "] " := by
  rw [← String.toList_inj]
  simp [Diagnostic.label, Diagnostic.ofProblem, Severity.name]

/-- Trimming takes nothing from an entry but the line feed at its end, since a caret stands before
that. -/
theorem report_ofProblem (source text : String) (p : Problem) (span : Span) :
    (Diagnostic.ofProblem p span).report source text =
      headline source p span ++ "\n" ++ (excerptLine text ++ "\n" ++ caretLine span) := by
  have hlines : (Diagnostic.ofProblem p span).locatedLines source text span =
      headline source p span ++ "\n" ++ (excerptLine text ++ "\n" ++ caretLine span) ++ "\n" := by
    delta Diagnostic.locatedLines headline excerptLine caretLine
    rw [label_ofProblem]
    simp only [String.append_assoc]
    rfl
  have hcaret : ∃ front, (caretLine span).toList = front ++ ['^'] := by
    refine ⟨"  | ".toList ++ List.replicate span.start ' ' ++
      List.replicate (max span.length 1 - 1) '^', ?_⟩
    have hwidth : max span.length 1 = max span.length 1 - 1 + 1 := by omega
    rw [caretLine, hwidth, List.replicate_succ']
    simp
  obtain ⟨front, hfront⟩ := hcaret
  show trimBlanks ((Diagnostic.ofProblem p span).locatedLines source text span) = _
  rw [hlines, trimBlanks, String.toList_append,
    dropTail_append_of_all _ _ (show "\n".toList.all isBlank = true by decide),
    ← String.toList_inj, String.toList_ofList]
  simp only [String.toList_append, hfront, ← List.append_assoc]
  exact dropTail_append_singleton _ (by decide)

/-- The lines of an entry: those of its headline, the text, and the carets. -/
def entryLines (source text : String) (f : Problem × Span) : List String :=
  textLines (headline source f.1 f.2) ++ [excerptLine text, caretLine f.2]

theorem textLines_report (source text : String) (f : Problem × Span) :
    textLines ((Diagnostic.ofProblem f.1 f.2).report source text) = entryLines source text f := by
  rw [report_ofProblem, textLines_append, textLines_append,
    textLines_of_not_mem (excerptLine_not_mem text), textLines_of_not_mem (caretLine_not_mem f.2)]
  rfl

theorem textLines_reports (source text : String) {found : List (Problem × Span)}
    (h : found ≠ []) :
    textLines (report source text (found.map fun f => .ofProblem f.1 f.2)) =
      found.flatMap (entryLines source text) := by
  rw [report, List.map_map, textLines_joinWith (by simpa using h), List.flatMap_map]
  simp only [Function.comp_apply, textLines_report]

theorem decimal_not_mem (n : Nat) : '\n' ∉ decimal n := by
  intro h
  have hd := List.all_eq_true.mp (decimal_all_isDigit n) _ h
  exact absurd hd (by decide)

theorem not_mem_toList_ofList {c : Char} {cs : List Char} (h : c ∉ cs) :
    c ∉ (String.ofList cs).toList := by
  rwa [String.toList_ofList]

theorem Code.id_not_mem (code : Code) : '\n' ∉ code.id.toList := by
  cases code <;> exact not_mem_toList_ofList (by decide)

theorem Code.message_not_mem (code : Code) : '\n' ∉ code.message.toList := by
  cases code <;> exact not_mem_toList_ofList (by decide)

/-- A headline goes over more than one line only if its description does. -/
theorem headline_not_mem {source : String} (hs : '\n' ∉ source.toList) {p : Problem} (span : Span)
    (hp : '\n' ∉ p.description.toList) : '\n' ∉ (headline source p span).toList := by
  have hid := p.code.id_not_mem
  have hn := not_mem_toList_ofList (decimal_not_mem (span.start + 1))
  delta headline
  simp only [natText, String.toList_append, List.mem_append, not_or]
  exact ⟨⟨⟨⟨⟨⟨⟨by decide, hid⟩, by decide⟩, hs⟩, by decide⟩, hn⟩, by decide⟩, hp⟩

theorem Unescapes.subset {cs ds : List Char} (h : Unescapes cs ds) : ds ⊆ cs := by
  induction h with
  | nil => exact List.Subset.refl []
  | keep c _ ih => exact List.cons_subset_cons c ih
  | drop _ _ ih => exact List.subset_cons_of_subset _ (List.cons_subset_cons _ ih)

/-- The text of a token consists of characters that it was read from. -/
theorem scan_text_subset {dialect : Dialect} {text s : String} {t : Token}
    (ht : t ∈ scan dialect text) (hv : t.value = .text s) : s.toList ⊆ text.toList := by
  have hread := @Tiles.readFrom_slice [] _ _ (scan_tiles dialect text) t ht
  rw [hv, List.nil_append] at hread
  have hslice : t.slice text.toList ⊆ text.toList :=
    ((List.take_sublist _ _).trans (List.drop_sublist _ _)).subset
  generalize t.slice text.toList = cs at hread hslice
  cases hread with
  | text hu => exact List.Subset.trans hu.subset hslice

/-- Of all contents of tokens, only texts can hold a line feed. -/
theorem display_not_mem {v : TokenValue} (hv : v.Sound) (ht : v.isText = false) :
    '\n' ∉ v.display.toList := by
  cases v with
  | text s => cases ht
  | identifier name =>
    intro hm
    have hc := isIdentContinue_of_mem_identifier hv _ hm
    exact absurd hc (by decide)
  | integer n => simpa [TokenValue.display, natText] using decimal_not_mem n
  | punct p => cases p <;> decide

/-- A mistake found in a text, with the stretch where it was found. -/
abbrev FoundIn (options : Options) (text : String) (f : Problem × Span) : Prop :=
  FoundAmong (scan options.dialect text) text.toList.length f.1 f.2

/-- A description goes over more than one line only if it quotes a text that does. -/
theorem FoundAmong.broken {options : Options} {text : String} {f : Problem × Span}
    (h : FoundIn options text f) (hm : '\n' ∈ f.1.description.toList) :
    '\n' ∈ text.toList ∧ ∃ t ∈ scan options.dialect text, ∃ s, t.value = .text s ∧
      '\n' ∈ s.toList ∧ f = (.notUnderstood (.text s), t.span) := by
  obtain ⟨p, span⟩ := f
  cases p with
  | general code => exact absurd hm code.message_not_mem
  | unclosed marker =>
    have hno : '\n' ∉ (Problem.unclosed marker).description.toList := by
      cases marker <;> decide
    exact absurd hm hno
  | notUnderstood v =>
    obtain ⟨t, ht, rfl, rfl⟩ := h.quoted v rfl
    have hquote : '\n' ∈ t.value.display.toList := by
      simpa [Problem.description] using hm
    cases hv : t.value with
    | text s =>
      have hs : '\n' ∈ s.toList := by simpa [hv, TokenValue.display] using hquote
      exact ⟨scan_text_subset ht hv hs, t, ht, s, hv, hs, rfl⟩
    | _ =>
      have hsound := scan_allSound options.dialect text t ht
      exact absurd hquote (display_not_mem hsound (by rw [hv]; rfl))

theorem two_le_length_textLines {text : String} (h : '\n' ∈ text.toList) :
    2 ≤ (textLines text).length := by
  obtain ⟨before, after, hsplit⟩ := List.append_of_mem h
  have hbefore := List.length_pos_iff.mpr (splitChars_ne_nil '\n' before)
  have hafter := List.length_pos_iff.mpr (splitChars_ne_nil '\n' after)
  rw [textLines, hsplit, splitChars_append_sep, List.length_map, List.length_append]
  omega

/-- A headline with a line feed in it is one line too many. -/
theorem length_entryLines (source text : String) (found : List (Problem × Span)) :
    3 * found.length ≤ (found.flatMap (entryLines source text)).length ∧
      ∀ f ∈ found, '\n' ∈ (headline source f.1 f.2).toList →
        3 * found.length < (found.flatMap (entryLines source text)).length := by
  induction found with
  | nil => simp
  | cons g found ih =>
    obtain ⟨hle, hlt⟩ := ih
    have hhead : 0 < (textLines (headline source g.1 g.2)).length := by
      rw [textLines, List.length_map]
      exact List.length_pos_iff.mpr (splitChars_ne_nil _ _)
    simp only [List.flatMap_cons, entryLines, List.length_append, List.length_cons,
      List.length_nil] at hle hlt ⊢
    refine ⟨by omega, fun f hf hm => ?_⟩
    rcases List.mem_cons.mp hf with rfl | hf
    · have htwo := two_le_length_textLines hm
      omega
    · have hrest := hlt f hf hm
      omega

theorem mem_headline {source : String} {p : Problem} {span : Span}
    (h : '\n' ∈ p.description.toList) : '\n' ∈ (headline source p span).toList := by
  delta headline
  rw [String.toList_append]
  exact List.mem_append_right _ h

theorem compile_found (options : Options) (text : String) :
    ∃ found : List (Problem × Span),
      (compile options text).diagnostics = found.map (fun f => .ofProblem f.1 f.2) ∧
        ∀ f ∈ found, FoundIn options text f := by
  have hall : ∀ d ∈ (compile options text).diagnostics, _ := fun d hd => exists_found hd
  generalize (compile options text).diagnostics = diagnostics at hall ⊢
  induction diagnostics with
  | nil => exact ⟨[], rfl, by simp⟩
  | cons d ds ih =>
    obtain ⟨p, span, rfl, hp⟩ := hall d (List.mem_cons_self ..)
    obtain ⟨found, rfl, hfound⟩ := ih fun d hd => hall d (List.mem_cons_of_mem _ hd)
    exact ⟨(p, span) :: found, rfl, List.forall_mem_cons.mpr ⟨hp, hfound⟩⟩

theorem excerptLine_column (text : String) (i : Nat) : (excerptLine text).toList[4 + i]? =
    text.toList[i]?.map fun c => if c = '\n' ∨ c = '\r' then ' ' else c := by
  have hline : (excerptLine text).toList = [' ', ' ', '|', ' '] ++ (oneLine text).toList := by
    simp [excerptLine]
  rw [hline, List.getElem?_append_right (by simp)]
  simp [oneLine]

theorem caretLine_column (span : Span) (i : Nat) : (caretLine span).toList[4 + i]? = some '^' ↔
    span.start ≤ i ∧ i < span.start + max span.length 1 := by
  have hline : (caretLine span).toList = [' ', ' ', '|', ' '] ++
      (List.replicate span.start ' ' ++ List.replicate (max span.length 1) '^') := by
    simp [caretLine]
  rw [hline, List.getElem?_append_right (by simp)]
  simp only [List.length_cons, List.length_nil, Nat.add_sub_cancel_left]
  by_cases hi : i < span.start
  · rw [List.getElem?_append_left (by simpa using hi)]
    simp [hi, Nat.not_le.mpr hi]
  · rw [List.getElem?_append_right (by simpa using hi), List.length_replicate,
      List.getElem?_replicate]
    split <;> simp <;> omega

/-- The layout of the report on a text. -/
structure ReportLayout (options : Options) (source text : String) (found : List (Problem × Span)) :
    Prop where
  /-- What is reported are mistakes, each at a stretch of the text. -/
  located : (compile options text).diagnostics = found.map (fun f => .ofProblem f.1 f.2) ∧
    ∀ f ∈ found, f.2.start + f.2.length ≤ text.toList.length
  /-- Without mistakes the report is empty. -/
  silent : found = [] → report source text (compile options text).diagnostics = ""
  /-- Each mistake has the lines of its headline, the text and the carets, in order. -/
  entries : found ≠ [] → textLines (report source text (compile options text).diagnostics) =
    found.flatMap (entryLines source text)
  /-- These are three lines each, if and only if no description has a line feed in it. -/
  three_lines : found ≠ [] →
    (textLines (report source text (compile options text).diagnostics) =
        (found.flatMap fun f => [headline source f.1 f.2, excerptLine text, caretLine f.2]) ↔
      ∀ f ∈ found, '\n' ∉ f.1.description.toList)
  /-- Such a description quotes a literal of the text that has the line feed in it. -/
  broken : ∀ f ∈ found, '\n' ∈ f.1.description.toList →
    '\n' ∈ text.toList ∧ ∃ t ∈ scan options.dialect text, ∃ s, t.value = .text s ∧
      '\n' ∈ s.toList ∧ f = (.notUnderstood (.text s), t.span)
  /-- Behind four characters the second line shows the text, with blanks for its line breaks. -/
  excerpt : ∀ i, (excerptLine text).toList[4 + i]? =
    text.toList[i]?.map fun c => if c = '\n' ∨ c = '\r' then ' ' else c
  /-- The carets stand under the characters of the stretch, or under its place. -/
  carets : ∀ f ∈ found, ∀ i, (caretLine f.2).toList[4 + i]? = some '^' ↔
    f.2.start ≤ i ∧ i < f.2.start + max f.2.length 1

/-- A report has three lines for each mistake, in order, but for mistakes that quote a literal with
a line feed in it. -/
theorem compile_reportLayout (options : Options) (text : String) {source : String}
    (hs : '\n' ∉ source.toList) : ∃ found, ReportLayout options source text found := by
  obtain ⟨found, hdiagnostics, hfound⟩ := compile_found options text
  have hentries : found ≠ [] →
      textLines (report source text (compile options text).diagnostics) =
        found.flatMap (entryLines source text) := by
    intro hne
    rw [hdiagnostics, textLines_reports source text hne]
  refine ⟨found, ⟨hdiagnostics, fun f hf => (hfound f hf).inside⟩, ?_, hentries, ?_,
    fun f hf => (hfound f hf).broken, excerptLine_column text, fun f _ => caretLine_column f.2⟩
  · rintro rfl
    rw [hdiagnostics]
    rfl
  · intro hne
    rw [hentries hne]
    constructor
    · intro heq f hf hm
      have hlt := (length_entryLines source text found).2 f hf (mem_headline hm)
      have hlen : (found.flatMap fun f =>
          [headline source f.1 f.2, excerptLine text, caretLine f.2]).length = 3 * found.length := by
        simp [List.length_flatMap, List.map_const', Nat.mul_comm]
      rw [heq] at hlt
      omega
    · intro hone
      rw [List.flatMap_def, List.flatMap_def]
      refine congrArg List.flatten (List.map_congr_left fun f hf => ?_)
      rw [entryLines, textLines_of_not_mem (headline_not_mem hs f.2 (hone f hf))]
      rfl

theorem compile_reportLayout_spread :
    '\n' ∉ "<input>".toList ∧
      (compile ⟨.standard, false⟩ "a\n!0! <b").diagnostics.length = 2 ∧
      ∃ found, ReportLayout ⟨.standard, false⟩ "<input>" "a\n!0! <b" found :=
  ⟨by decide, by decide +kernel, compile_reportLayout ⟨.standard, false⟩ "a\n!0! <b" (by decide)⟩

/-- The closing parenthesis ends the body for the scanner but not for the parser, so that the
literal behind it is quoted, with its line feed. -/
theorem report_quoted_lineFeed :
    '\n' ∉ "<input>".toList ∧
      (textLines (report "<input>" "(!1-2)x\ny!"
        (compile ⟨.inlineExecution, false⟩ "(!1-2)x\ny!").diagnostics)).length ≠
      3 * (compile ⟨.inlineExecution, false⟩ "(!1-2)x\ny!").diagnostics.length := by
  refine ⟨by decide, ?_⟩
  have hquoted : ∃ d ∈ (compile ⟨.inlineExecution, false⟩ "(!1-2)x\ny!").diagnostics,
      '\n' ∈ d.description.toList := by
    decide +kernel
  obtain ⟨found, hdiagnostics, -⟩ := compile_found ⟨.inlineExecution, false⟩ "(!1-2)x\ny!"
  rw [hdiagnostics] at hquoted ⊢
  obtain ⟨d, hd, hm⟩ := hquoted
  obtain ⟨f, hf, rfl⟩ := List.mem_map.mp hd
  rw [textLines_reports _ _ (List.ne_nil_of_mem hf), List.length_map]
  exact Nat.ne_of_gt ((length_entryLines _ _ found).2 f hf (mem_headline hm))

end CommandTemplate
