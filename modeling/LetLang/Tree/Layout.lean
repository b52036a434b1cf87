import LetLang.Tree
import LetLang.Lexeme

/-!
# Writing a tree as source text

Every statement ends with a semicolon. On one line, statements are separated by a blank; on several,
each has a line of its own, after an indentation that grows by a tab inside a block. A tree with a
missing part has no text.

The writers put the text of a tree in front of a given one, so that writing takes time linear in
what is written.
-/
namespace LetLang

inductive Style where
  | multiLine
  | singleLine
deriving DecidableEq

/-- Styles are numbered; every number but 1 means several lines. -/
def Style.ofCode (n : Int) : Style :=
  if n = 1 then .singleLine else .multiLine

/-- What stands between two statements. -/
def Style.separator : Style → Glyph
  | .multiLine => .char '\n'
  | .singleLine => .char ' '

/-- What stands before each statement. -/
def Style.margin (indent : Text) : Style → Text
  | .multiLine => indent
  | .singleLine => []

/-- The delimiter a string is written with, a double quote unless it has its own. -/
def delimiter : Option SourceChar → Glyph
  | none => .char Quote.double.char
  | some r => .char r.toChar

def boolText : Bool → Text
  | true => Text.ofChars Keyword.trueKw.spelling
  | false => Text.ofChars Keyword.falseKw.spelling

mutual

/-- The text of an expression, followed by `tail`. -/
def Expr.write (style : Style) (indent : Text) : Expr → Text → Option Text
  | .absent, _ => none
  | .ident i, tail => some (i.name ++ tail)
  | .number n _, tail => some (Text.ofChars (Decimal.ofNat n.toNat) ++ tail)
  | .bool b _, tail => some (boolText b ++ tail)
  | .string value quote _, tail =>
    some (delimiter quote :: (value ++ delimiter quote :: tail))
  | .call called input _, tail =>
    match input.write style indent (.char ')' :: tail) with
    | none => none
    | some t => called.write style indent (.char '(' :: t)
  | .access _ none _, _ => none
  | .access target (some field) _, tail =>
    target.write style indent (.char '.' :: (field.name ++ tail))
  | .block [] _, tail => some (.char '\x7b' :: .char '\x7d' :: tail)
  | .block (s :: ss) _, tail =>
    match style with
    | .singleLine =>
      match Stmt.writeAll .singleLine [] (s :: ss) (.char '\x7d' :: tail) with
      | none => none
      | some t => some (.char '\x7b' :: t)
    | .multiLine =>
      match Stmt.writeAll .multiLine (indent ++ [.char '\t']) (s :: ss)
          (.char '\n' :: (indent ++ .char '\x7d' :: tail)) with
      | none => none
      | some t => some (.char '\x7b' :: .char '\n' :: t)

/-- The text of a statement, followed by `tail`. -/
def Stmt.write (style : Style) (indent : Text) : Stmt → Text → Option Text
  | .absent, _ => none
  | .binding none _ _, _ => none
  | .binding (some name) value _, tail =>
    match value.write style indent (.char ';' :: tail) with
    | none => none
    | some t => some (Text.ofString "let " ++ (name.name ++ (Text.ofString " = " ++ t)))
  | .stated value _, tail => value.write style indent (.char ';' :: tail)

/-- The text of a list of statements, followed by `tail`. -/
def Stmt.writeAll (style : Style) (indent : Text) : List Stmt → Text → Option Text
  | [], tail => some tail
  | s :: ss, tail =>
    match Stmt.writeMore style indent ss tail with
    | none => none
    | some t =>
      match s.write style indent t with
      | none => none
      | some u => some (style.margin indent ++ u)

/-- The text of the statements after a first one, followed by `tail`. -/
def Stmt.writeMore (style : Style) (indent : Text) : List Stmt → Text → Option Text
  | [], tail => some tail
  | s :: ss, tail =>
    match Stmt.writeMore style indent ss tail with
    | none => none
    | some t =>
      match s.write style indent t with
      | none => none
      | some u => some (style.separator :: (style.margin indent ++ u))

end

/-!
## Equations

What is written of a tree with several parts, from what is written of its parts. A part without a text
leaves the tree without one.
-/

section Equations

variable (style : Style) (indent tail : Text)

theorem Expr.write_call (called input : Expr) (span : Span) :
    (Expr.call called input span).write style indent tail =
      (input.write style indent (.char ')' :: tail)).bind fun t =>
        called.write style indent (.char '(' :: t) := by
  rw [Expr.write]
  cases input.write style indent (.char ')' :: tail) <;> rfl

theorem Expr.write_block_singleLine (s : Stmt) (ss : List Stmt) (span : Span) :
    (Expr.block (s :: ss) span).write .singleLine indent tail =
      (Stmt.writeAll .singleLine [] (s :: ss) (.char '\x7d' :: tail)).map (.char '\x7b' :: ·) := by
  rw [Expr.write]
  cases Stmt.writeAll .singleLine [] (s :: ss) (.char '\x7d' :: tail) <;> rfl

theorem Expr.write_block_multiLine (s : Stmt) (ss : List Stmt) (span : Span) :
    (Expr.block (s :: ss) span).write .multiLine indent tail =
      (Stmt.writeAll .multiLine (indent ++ [.char '\t']) (s :: ss)
        (.char '\n' :: (indent ++ .char '\x7d' :: tail))).map
          (.char '\x7b' :: .char '\n' :: ·) := by
  rw [Expr.write]
  cases Stmt.writeAll .multiLine (indent ++ [.char '\t']) (s :: ss)
    (.char '\n' :: (indent ++ .char '\x7d' :: tail)) <;> rfl

theorem Stmt.write_binding (name : Ident) (value : Expr) (span : Span) :
    (Stmt.binding (some name) value span).write style indent tail =
      (value.write style indent (.char ';' :: tail)).map fun t =>
        Text.ofString "let " ++ (name.name ++ (Text.ofString " = " ++ t)) := by
  rw [Stmt.write]
  cases value.write style indent (.char ';' :: tail) <;> rfl

theorem Stmt.writeAll_cons (s : Stmt) (ss : List Stmt) :
    Stmt.writeAll style indent (s :: ss) tail =
      (Stmt.writeMore style indent ss tail).bind fun t =>
        (s.write style indent t).map (style.margin indent ++ ·) := by
  rw [Stmt.writeAll]
  cases Stmt.writeMore style indent ss tail with
  | none => rfl
  | some t =>
    simp only [Option.bind_some]
    cases s.write style indent t <;> rfl

theorem Stmt.writeMore_cons (s : Stmt) (ss : List Stmt) :
    Stmt.writeMore style indent (s :: ss) tail =
      (Stmt.writeMore style indent ss tail).bind fun t =>
        (s.write style indent t).map fun u => style.separator :: (style.margin indent ++ u) := by
  rw [Stmt.writeMore]
  cases Stmt.writeMore style indent ss tail with
  | none => rfl
  | some t =>
    simp only [Option.bind_some]
    cases s.write style indent t <;> rfl

end Equations

/-- The text of a node, if no part of it is missing. -/
def Node.text? (style : Style) (indent : Text) : Node → Option Text
  | .program p => Stmt.writeAll style indent p.stmts []
  | .stmt s => s.write style indent []
  | .expr e => e.write style indent []
  | .missingName => none
  | .foreign _ text _ => some text

end LetLang
