import LetLang.Cursor
import LetLang.Parse.Production

/-!
# Parsing a source

A production reads at a cursor: if it matches, the cursor moves behind what it read, and otherwise
it stays. A program is as many statements as can be read; `parse` and `parseExpression` read a whole
source and say where they stopped if something is left.
-/
namespace LetLang

namespace Parse

/-- What reading at a cursor gives, and the cursor afterwards. -/
structure Reading (α : Type) where
  notes : List Note
  result : α
  cursor : Cursor

/-- Reads with a production at a cursor. -/
def readAt {α : Type} (production : List Token → Outcome α) (c : Cursor) : Reading (Option α) :=
  match production c.tokens with
  | ⟨log, none⟩ => ⟨log.toList, none, c⟩
  | ⟨log, some (a, left)⟩ => ⟨log.toList, some a, c.before left⟩

def readExpr (o : Options) : Cursor → Reading (Option Expr) :=
  readAt fun ts => (expr o ts).outcome

def readStmt (o : Options) : Cursor → Reading (Option Stmt) :=
  readAt fun ts => (stmt o ts).outcome

/-- Reads statements as long as there are any, and the spaces after the last. -/
def readProgram (o : Options) (c : Cursor) : Reading Program :=
  let read := stmts o c.tokens
  let stop := c.before (skipSpaces read.left.val)
  ⟨read.log.toList ++ [.stopped read.results.length stop.pos], ⟨read.results⟩, stop⟩

/-- Takes the end of a statement at a cursor. -/
def closeStmtAt (stop : Int) (c : Cursor) : Int × Cursor :=
  let (stop, left) := closeStmt stop c.tokens
  (stop, c.before left)

/-- The productions of the grammar by name. -/
inductive Production where
  | stmt
  | letStmt
  | exprStmt
  | expr
  | call
  | access
  | primary
  | number
  | block
deriving DecidableEq

def Production.outcome (o : Options) : Production → List Token → Outcome Node
  | .stmt, ts => (Parse.stmt o ts).outcome.map .stmt
  | .letStmt, ts => (Parse.letStmt o ts).outcome.map .stmt
  | .exprStmt, ts => (Parse.exprStmt o ts).outcome.map .stmt
  | .expr, ts => (Parse.expr o ts).outcome.map .expr
  | .call, ts => (Parse.call o ts).outcome.map .expr
  | .access, ts => (Parse.access o ts).outcome.map .expr
  | .primary, ts => (Parse.primary o ts).outcome.map .expr
  | .number, ts => (Parse.number ts).outcome.map .expr
  | .block, ts => (Parse.block o ts).outcome.map .expr

def Production.read (o : Options) (p : Production) : Cursor → Reading (Option Node) :=
  readAt (p.outcome o)

end Parse

/-- Where a parse stopped before the end, after how many statements. -/
structure Incomplete where
  offset : Int
  parsed : Int
deriving DecidableEq

def Incomplete.message (e : Incomplete) : String :=
  "offset " ++ Decimal.string e.offset ++ ": no match after " ++ Decimal.string e.parsed
    ++ " statements"

/-- Why a source was not read as a whole. -/
inductive ParseError where
  | program (e : Incomplete)
  | expression (e : Incomplete)
deriving DecidableEq

namespace ParseError

def incomplete : ParseError → Incomplete
  | .program e | .expression e => e

def message : ParseError → String
  | .program e => e.message
  | .expression e => "parse expression: " ++ e.message

end ParseError

/-- A tree with the notes made on the way, and an error if the source goes on behind it. -/
structure Parsed (α : Type) where
  notes : List Note
  tree : α
  error? : Option ParseError

/-- Reads a source as a program. On an error the tree holds the statements before it. -/
def parse (o : Parse.Options) (source : Source) : Parsed Program :=
  let read := Parse.readProgram o (.start source)
  let error := ParseError.program ⟨read.cursor.pos, read.result.stmts.length⟩
  ⟨read.notes, read.result, if read.cursor.atEnd then none else some error⟩

/-- Reads a source as one expression between spaces. -/
def parseExpression (o : Parse.Options) (source : Source) : Parsed (Option Expr) :=
  let read := Parse.readExpr o (Cursor.start source).skipSpaces.2
  match read.result with
  | none => ⟨read.notes, none, some (.expression ⟨read.cursor.pos, 0⟩)⟩
  | some x =>
    let stop := read.cursor.skipSpaces.2
    ⟨read.notes, some x, if stop.atEnd then none else some (.expression ⟨stop.pos, 0⟩)⟩

end LetLang
