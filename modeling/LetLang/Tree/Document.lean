import LetLang.Tree
import LetLang.Kind
import LetLang.Json

/-!
# Trees and tokens as JSON

Every node is an object with its type and place; empty names, absent parts and empty lists of
statements are left out, while the value of a literal always stands. An absent statement of a list
is `null`. A tree in which the name of a binding or the field of an access is missing, and a program
whose first or last statement is absent, has no document.
-/
namespace LetLang

def Span.document (s : Span) : Json :=
  .obj [("start", .num s.start), ("end", .num s.stop)]

/-- The members of an object: its type, its place and the rest. -/
def Json.node (type : Text) (span : Span) (members : List (String × Json)) : Json :=
  .obj (("type", .str type) :: ("pos", span.document) :: members)

/-- A member that is left out if its text is empty. -/
def Json.textMember (key : String) : Text → List (String × Json)
  | [] => []
  | g :: t => [(key, .str (g :: t))]

/-- A member that is left out if it is null. -/
def Json.partMember (key : String) : Json → List (String × Json)
  | .null => []
  | j => [(key, j)]

/-- A member that is left out if the list is empty. -/
def Json.listMember (key : String) : List Json → List (String × Json)
  | [] => []
  | j :: js => [(key, .arr (j :: js))]

/-- The label of a kind of node in a document. -/
def Node.Kind.label : Node.Kind → String
  | .program => "Program"
  | .binding => "Let"
  | .stated => "Expr"
  | .ident => "Identifier"
  | .call => "Call"
  | .access => "Access"
  | .block => "Block"
  | .number => "Number"
  | .bool => "Bool"
  | .string => "String"
  | .foreign => "Foreign"

/-- An object of a known kind of node. -/
def Node.Kind.object (kind : Node.Kind) (span : Span) (members : List (String × Json)) : Json :=
  .node (Text.ofString kind.label) span members

def Ident.document (i : Ident) : Json :=
  Node.Kind.ident.object i.span (Json.textMember "name" i.name)

mutual

def Expr.document? : Expr → Option Json
  | .absent => some .null
  | .ident i => some i.document
  | .number n span => some (Node.Kind.number.object span [("value", .num n.toNat)])
  | .bool b span => some (Node.Kind.bool.object span [("value", .bool b)])
  | .string value quote span =>
    some (Node.Kind.string.object span
      (("value", .str value) :: Json.textMember "quote" (Text.ofDelimiter quote)))
  | .call called input span =>
    match called.document?, input.document? with
    | some f, some x =>
      some (Node.Kind.call.object span (Json.partMember "called" f ++ Json.partMember "input" x))
    | _, _ => none
  | .access target field span =>
    match target.document?, field with
    | some t, some i =>
      some (Node.Kind.access.object span (Json.partMember "target" t ++ [("field", i.document)]))
    | _, _ => none
  | .block stmts span =>
    match Stmt.documents? stmts with
    | some items => some (Node.Kind.block.object span (Json.listMember "statements" items))
    | none => none

def Stmt.document? : Stmt → Option Json
  | .absent => some .null
  | .binding name value span =>
    match name, value.document? with
    | some i, some v =>
      some (Node.Kind.binding.object span
        (Json.textMember "name" i.name ++ Json.partMember "expr" v))
    | _, _ => none
  | .stated value span =>
    match value.document? with
    | some v => some (Node.Kind.stated.object span (Json.partMember "expr" v))
    | none => none

def Stmt.documents? : List Stmt → Option (List Json)
  | [] => some []
  | s :: ss =>
    match s.document?, Stmt.documents? ss with
    | some j, some js => some (j :: js)
    | _, _ => none

end

/-- The document of a tree, unless a part it needs is missing. -/
def Node.document? : Node → Option Json
  | .program p =>
    match p.span?, Stmt.documents? p.stmts with
    | some span, some items =>
      some (Node.Kind.program.object span (Json.listMember "statements" items))
    | _, _ => none
  | .stmt s => s.document?
  | .expr e => e.document?
  | .missingName => none
  | .foreign label _ span => some (.node label span [])

def Entry.document (e : Entry) : Json :=
  .obj ([("type", .str e.kind.className), ("literal", .str e.kind.literal)]
    ++ Json.textMember "quote" (Text.ofDelimiter e.kind.quote) ++ [("pos", e.span.document)])

/-- The document of a token listing. -/
def Entry.listing (es : List Entry) : Json :=
  .arr (es.map Entry.document)

end LetLang
