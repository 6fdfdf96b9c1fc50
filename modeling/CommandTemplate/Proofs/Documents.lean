import CommandTemplate.CommandLine.Run
import CommandTemplate.Proofs.JsonText

namespace CommandTemplate

open Function

namespace Json

theorem ofNat_injective : Injective ofNat := by
  intro n m h
  exact Int.ofNat.inj (Json.num.inj h)

/-- An absent value is told apart where no value is written as null. -/
theorem ofOption_injective {α : Type} {f : α → Json} (hf : Injective f)
    (hnull : ∀ a, f a ≠ .null) : Injective (ofOption f) := by
  intro a b h
  cases a with
  | none =>
    cases b with
    | none => rfl
    | some b => exact absurd h.symm (hnull b)
  | some a =>
    cases b with
    | none => exact absurd h (hnull a)
    | some b => rw [hf h]

theorem ofOption_ofNat_injective : Injective (ofOption ofNat) :=
  ofOption_injective ofNat_injective fun _ h => nomatch h

theorem map_injective {α : Type} {f : α → Json} (hf : Injective f) : Injective (List.map f) :=
  fun _ _ => (List.map_inj_right fun _ _ h => hf h).mp

end Json

namespace Punct

theorem ofName?_name (p : Punct) : ofName? p.name = some p := by
  cases p <;> rfl

theorem name_injective : Injective name := by
  intro p q h
  rw [← Option.some.injEq, ← ofName?_name, h, ofName?_name]

end Punct

namespace Severity

theorem ofName?_name (s : Severity) : ofName? s.name = some s := by
  cases s <;> rfl

theorem name_injective : Injective name := by
  intro s t h
  rw [← Option.some.injEq, ← ofName?_name, h, ofName?_name]

end Severity

namespace Code

theorem ofId?_id (c : Code) : ofId? c.id = some c := by
  cases c <;> rfl

theorem id_injective : Injective id := by
  intro c d h
  rw [← Option.some.injEq, ← ofId?_id, h, ofId?_id]

end Code

theorem Span.document_injective : Injective Span.document := by
  intro ⟨start, length⟩ ⟨start', length'⟩ h
  simp only [Span.document, Json.obj.injEq, List.cons.injEq, Prod.mk.injEq, true_and,
    and_true] at h
  rw [Json.ofNat_injective h.1, Json.ofNat_injective h.2]

theorem TokenValue.document_injective : Injective TokenValue.document := by
  intro v w h
  cases v <;> cases w <;> simp [TokenValue.document] at h
  case text.text => rw [h]
  case identifier.identifier => rw [h]
  case integer.integer => rw [Json.ofNat_injective h]
  case punct.punct => rw [Punct.name_injective h]

theorem Token.document_injective : Injective Token.document := by
  intro ⟨value, start, stop⟩ ⟨value', start', stop'⟩ h
  simp only [Token.document, Json.obj.injEq, List.cons.injEq, Prod.mk.injEq, true_and,
    and_true] at h
  obtain ⟨hvalue, hstart, hstop⟩ := h
  rw [TokenValue.document_injective hvalue, Json.ofNat_injective hstart, Json.ofNat_injective hstop]

theorem Scanned.document_injective : Injective Scanned.document := by
  intro ⟨tokens, justText⟩ ⟨tokens', justText'⟩ h
  simp only [Scanned.document, Json.obj.injEq, Json.arr.injEq, Json.bool.injEq, List.cons.injEq,
    Prod.mk.injEq, true_and, and_true] at h
  rw [Json.map_injective Token.document_injective h.1, h.2]

/-- The fields of a substitution tell it from all others, also where further fields follow. -/
theorem Substitution.fields_append_inj {s t : Substitution} {fs gs : List (String × Json)}
    (h : s.fields ++ fs = t.fields ++ gs) : s = t ∧ fs = gs := by
  obtain ⟨first, last, singular⟩ := s
  obtain ⟨first', last', singular'⟩ := t
  simp only [Substitution.fields, List.cons_append, List.nil_append, List.cons.injEq,
    Prod.mk.injEq, Json.bool.injEq, true_and] at h
  obtain ⟨hfirst, hlast, rfl, hrest⟩ := h
  rw [Json.ofOption_ofNat_injective hfirst, Json.ofOption_ofNat_injective hlast]
  exact ⟨rfl, hrest⟩

namespace Expr

theorem document_optional (s : Substitution) (d : Option Expr) :
    document (.optional s d) =
      .obj (("kind", .str "optional_substitution") :: s.fields ++
        [("default_value", .ofOption document d)]) := by
  cases d <;> rfl

theorem document_ne_null (e : Expr) : document e ≠ .null := by
  cases e with
  | optional s d => simp [document_optional]
  | _ => simp [document]

mutual

/-- The kind of an expression comes first, so the documents of two constructors differ there. -/
theorem document_inj (e f : Expr) (h : document e = document f) : e = f := by
  match e with
  | .literal s =>
    cases f with
    | literal t => simpa [document] using h
    | _ => simp [document, document_optional] at h
  | .identifier s =>
    cases f with
    | identifier t => simpa [document] using h
    | _ => simp [document, document_optional] at h
  | .group es =>
    cases f with
    | group fs => rw [documents_inj es fs (by simpa [document] using h)]
    | _ => simp [document, document_optional] at h
  | .call name arguments =>
    cases f with
    | call name' arguments' =>
      obtain ⟨hname, harguments⟩ : name = name' ∧
          argumentDocuments arguments = argumentDocuments arguments' := by
        simpa [document] using h
      rw [hname, argumentDocuments_inj arguments arguments' harguments]
    | _ => simp [document, document_optional] at h
  | .imperative s =>
    cases f with
    | imperative t =>
      have hfields : s.fields ++ [] = t.fields ++ [] := by simpa [document] using h
      rw [(Substitution.fields_append_inj hfields).1]
    | _ => simp [document, document_optional] at h
  | .optional s d =>
    cases f with
    | optional t d' =>
      simp only [document_optional, Json.obj.injEq, List.cons_append, List.cons.injEq,
        true_and] at h
      obtain ⟨rfl, hdefault⟩ := Substitution.fields_append_inj h
      simp only [List.cons.injEq, Prod.mk.injEq, true_and, and_true] at hdefault
      -- `ofOption_injective` would ask for the statement at all expressions, not at parts only.
      match d, d' with
      | none, none => rfl
      | none, some e' => exact absurd hdefault.symm (document_ne_null e')
      | some e, none => exact absurd hdefault (document_ne_null e)
      | some e, some e' => rw [document_inj e e' hdefault]
    | _ => simp [document, document_optional] at h

theorem documents_inj (es fs : List Expr) (h : documents es = documents fs) : es = fs := by
  match es, fs with
  | [], [] => rfl
  | [], _ :: _ => simp [documents] at h
  | _ :: _, [] => simp [documents] at h
  | e :: es, f :: fs =>
    simp only [documents, List.cons.injEq] at h
    rw [document_inj e f h.1, documents_inj es fs h.2]

theorem argumentDocuments_inj (as bs : List (List Expr))
    (h : argumentDocuments as = argumentDocuments bs) : as = bs := by
  match as, bs with
  | [], [] => rfl
  | [], _ :: _ => simp [argumentDocuments] at h
  | _ :: _, [] => simp [argumentDocuments] at h
  | a :: as, b :: bs =>
    simp only [argumentDocuments, Json.obj.injEq, Json.arr.injEq, List.cons.injEq, Prod.mk.injEq,
      true_and, and_true] at h
    rw [documents_inj a b h.1, argumentDocuments_inj as bs h.2]

end

end Expr

theorem treeDocument_injective : Injective treeDocument := by
  intro es fs h
  exact Expr.documents_inj es fs (by simpa [treeDocument] using h)

theorem Diagnostic.document_injective : Injective Diagnostic.document := by
  intro ⟨code, severity, description, span, locatable, payload⟩
    ⟨code', severity', description', span', locatable', payload'⟩ h
  have hspans : Injective (Json.ofOption Span.document) :=
    Json.ofOption_injective Span.document_injective (by simp [Span.document])
  -- The first field says whether there is a code, the number of fields whether a document is
  -- attached.
  have hcode : code = code' := by
    cases code <;> cases code' <;> simp [Diagnostic.document] at h
    case none.none => rfl
    case some.some => rw [Code.id_injective h.1]
  subst hcode
  simp only [Diagnostic.document, Json.obj.injEq, List.append_assoc, List.append_cancel_left_eq,
    List.cons_append, List.nil_append, List.cons.injEq, Prod.mk.injEq, Json.str.injEq,
    Json.bool.injEq, true_and] at h
  obtain ⟨hseverity, rfl, hspan, rfl, hpayload⟩ := h
  have hattached : payload = payload' := by
    cases payload <;> cases payload' <;> simp at hpayload
    case none.none => rfl
    case some.some => rw [hpayload]
  rw [Severity.name_injective hseverity, hspans hspan, hattached]

theorem Compilation.document_injective : Injective Compilation.document := by
  intro ⟨tree, diagnostics, justText⟩ ⟨tree', diagnostics', justText'⟩ h
  simp only [Compilation.document, Json.obj.injEq, Json.arr.injEq, Json.bool.injEq,
    List.cons.injEq, Prod.mk.injEq, true_and, and_true] at h
  obtain ⟨htree, hdiagnostics, rfl⟩ := h
  have htrees : Injective (Json.ofOption treeDocument) :=
    Json.ofOption_injective treeDocument_injective (by simp [treeDocument])
  rw [htrees htree, Json.map_injective Diagnostic.document_injective hdiagnostics]

/-- What is printed about a template tells all that came of it: the tree, the entries and whether
it holds nothing but text; and likewise what is printed about its tokens. This is so of any tree
and of any entries, whether or not reading a template can bring them about. Entries may have
documents attached to them. The numbers of those are integers, as in every `Json`: of documents with
other numbers nothing is said. -/
theorem printed_determines :
    (∀ c c' : Compilation, c.document.pretty = c'.document.pretty ↔ c = c') ∧
    (∀ s s' : Scanned, s.document.pretty = s'.document.pretty ↔ s = s') ∧
    (∀ job job' : Job,
      ((Command.parse.perform job).stdout = (Command.parse.perform job').stdout ↔
        compile job.options job.text = compile job'.options job'.text) ∧
      ((Command.tokens.perform job).stdout = (Command.tokens.perform job').stdout ↔
        scanned job.options.dialect job.text = scanned job'.options.dialect job'.text)) := by
  have hcompilation : ∀ c c' : Compilation, c.document.pretty = c'.document.pretty ↔ c = c' :=
    fun c c' => ⟨fun h => Compilation.document_injective (Json.pretty_injective h),
      fun h => by rw [h]⟩
  have hscanned : ∀ s s' : Scanned, s.document.pretty = s'.document.pretty ↔ s = s' :=
    fun s s' => ⟨fun h => Scanned.document_injective (Json.pretty_injective h),
      fun h => by rw [h]⟩
  refine ⟨hcompilation, hscanned, fun job job' => ⟨?_, ?_⟩⟩
  · exact (String.append_left_inj "\n").trans (hcompilation _ _)
  · exact (String.append_left_inj "\n").trans (hscanned _ _)

end CommandTemplate
