import CommandTemplate.Compilation
import CommandTemplate.Json.Pretty

namespace CommandTemplate

def Span.document (s : Span) : Json :=
  .obj [("start", .ofNat s.start), ("length", .ofNat s.length)]

def TokenValue.document : TokenValue → Json
  | .text s => .obj [("kind", .str "text"), ("value", .str s)]
  | .identifier s => .obj [("kind", .str "identifier"), ("value", .str s)]
  | .integer n => .obj [("kind", .str "integer"), ("value", .ofNat n)]
  | .punct p => .obj [("kind", .str "punct"), ("value", .str p.name)]

def Token.document (t : Token) : Json :=
  .obj [("value", t.value.document), ("position", .ofNat t.start), ("end_position", .ofNat t.stop)]

/-- The outcome of a scan as a document. -/
def Scanned.document (s : Scanned) : Json :=
  .obj [("tokens", .arr (s.tokens.map Token.document)), ("is_just_text", .bool s.justText)]

/-- The fields of a substitution, which stand beside those of the expression that holds it. -/
def Substitution.fields (s : Substitution) : List (String × Json) :=
  [("argument_number", .ofOption .ofNat s.first),
    ("last_argument_number", .ofOption .ofNat s.last),
    ("singular", .bool s.singular)]

namespace Expr

mutual

/-- An expression as a document. Its kind comes first. -/
def document : Expr → Json
  | .literal text => .obj [("kind", .str "string_literal"), ("text", .str text)]
  | .identifier name => .obj [("kind", .str "identifier"), ("name", .str name)]
  | .group es => .obj [("kind", .str "group"), ("expressions", .arr (documents es))]
  | .call name arguments =>
    .obj [("kind", .str "function_call"), ("name", .obj [("name", .str name)]),
      ("arguments", .arr (argumentDocuments arguments))]
  | .imperative s => .obj (("kind", .str "imperative_substitution") :: s.fields)
  | .optional s none =>
    .obj (("kind", .str "optional_substitution") :: s.fields ++ [("default_value", .null)])
  | .optional s (some e) =>
    .obj (("kind", .str "optional_substitution") :: s.fields ++ [("default_value", document e)])

/-- The documents of expressions, in order. -/
def documents : List Expr → List Json
  | [] => []
  | e :: es => document e :: documents es

/-- The documents of arguments, in order. -/
def argumentDocuments : List (List Expr) → List Json
  | [] => []
  | a :: as => .obj [("expressions", .arr (documents a))] :: argumentDocuments as

end

end Expr

/-- A tree as a document. -/
def treeDocument (tree : List Expr) : Json :=
  .obj [("expressions", .arr (Expr.documents tree))]

/-- An entry as a document. The code and the attached document are left out where there are
none. -/
def Diagnostic.document (d : Diagnostic) : Json :=
  .obj <|
    (match d.code with
      | some code => [("code", .str code.id)]
      | none => []) ++
    [("severity", .str d.severity.name), ("description", .str d.description),
      ("span", .ofOption Span.document d.span), ("can_locate", .bool d.locatable)] ++
    (match d.payload with
      | some payload => [("associated_object", payload)]
      | none => [])

/-- The outcome of a compilation as a document. -/
def Compilation.document (c : Compilation) : Json :=
  .obj [("expression", .ofOption treeDocument c.tree),
    ("diagnostics", .arr (c.diagnostics.map Diagnostic.document)),
    ("is_just_text", .bool c.justText)]

end CommandTemplate
