import LetLang.Parse

/-!
# Sessions

A session is a parser at work next to other cursors. Cursors are kept in numbered cells; a name
stands for a cell, so two names can stand for the same cursor and see each other's moves. The parser
has a cell of its own, which a restart exchanges for a new one while the old cell stays as it was.
-/
namespace LetLang

structure Session where
  options : Parse.Options
  cells : List Cursor
  names : List (String × Nat)
  main : Nat

namespace Session

/-- A cursor in a session: the parser's own or a named one. -/
inductive Slot where
  | main
  | named (name : String)

/-- What can be done with the cursor in a slot. -/
inductive Step where
  | state
  | source
  | next
  | peek
  | skipWhile (p : Lexeme → Bool)
  | skipOnce (p : Lexeme → Bool)
  | skipSpaces
  | skipSemicolon
  | copyAs (name : String)
  | holdAs (name : String)
  | openAs (name : String) (source : Source)
  | copyFrom (origin : Slot)
  | restart (source : Source)
  | stmt
  | expr
  | program
  | production (p : Parse.Production)
  | closeStmt (stop : Int)

/-- What a step answers. A node comes with the source it was read from, which need not be that of
the cursor the step was taken on. -/
inductive Answer where
  | nothing
  | token (t : Option Token)
  | source (rs : Source)
  | node (n : Option Node) (source : Source)
  | stop (stop : Int)

structure Report where
  answer : Answer
  notes : List Note
  cursor : Cursor

/-- A session with a parser at the start of a source. -/
def start (options : Parse.Options) (source : Source) : Session :=
  ⟨options, [.start source], [], 0⟩

def cell? (s : Session) : Slot → Option Nat
  | .main => some s.main
  | .named name => s.names.lookup name

def cursorAt (s : Session) (cell : Nat) : Cursor :=
  s.cells.getD cell (.start [])

def setCell (s : Session) (cell : Nat) (c : Cursor) : Session :=
  { s with cells := s.cells.set cell c }

/-- Makes a name stand for a cell. -/
def bind (s : Session) (name : String) (cell : Nat) : Session :=
  { s with names := (name, cell) :: s.names }

/-- A session with one more cell, whose number is the former count of cells. -/
def addCell (s : Session) (c : Cursor) : Session :=
  { s with cells := s.cells ++ [c] }

/-- The report on a step that leaves a session with the cursor of its cell as it now is. -/
def report (s : Session) (cell : Nat) (answer : Answer) (notes : List Note) : Session × Report :=
  (s, ⟨answer, notes, s.cursorAt cell⟩)

/-- A step that moves the cursor of a cell and gives a token. -/
def skip (s : Session) (cell : Nat) (move : Cursor → Option Token × Cursor) : Session × Report :=
  let (t, c) := move (s.cursorAt cell)
  (s.setCell cell c).report cell (.token t) []

/-- A step that reads a tree at the cursor of cell `target` and reports on cell `cell`. -/
def read (s : Session) (target cell : Nat) (reading : Parse.Reading (Option Node)) :
    Session × Report :=
  (s.setCell target reading.cursor).report cell (.node reading.result reading.cursor.source)
    reading.notes

/-- A reading whose result is taken as a node. -/
def asNode {α : Type} (f : α → Option Node) (r : Parse.Reading α) : Parse.Reading (Option Node) :=
  ⟨r.notes, f r.result, r.cursor⟩

/-- Takes a step on the cursor in cell `cell`. There is no result if a slot it names is unknown. -/
def run (s : Session) (cell : Nat) : Step → Option (Session × Report)
  | .state => some (s.report cell .nothing [])
  | .source => some (s.report cell (.source (s.cursorAt cell).source) [])
  | .next =>
    some <| s.skip cell fun c =>
      match c.next? with
      | none => (none, c)
      | some (t, d) => (some t, d)
  | .peek => some (s.report cell (.token (s.cursorAt cell).peek?) [])
  | .skipWhile p => some (s.skip cell (Cursor.skipWhile p))
  | .skipOnce p => some (s.skip cell (Cursor.skipOnce p))
  | .skipSpaces => some (s.skip cell Cursor.skipSpaces)
  | .skipSemicolon => some (s.skip cell Cursor.skipSemicolon)
  | .copyAs name =>
    some (((s.addCell (s.cursorAt cell)).bind name s.cells.length).report cell .nothing [])
  | .holdAs name => some ((s.bind name cell).report cell .nothing [])
  | .openAs name source =>
    some (((s.addCell (.start source)).bind name s.cells.length).report cell .nothing [])
  | .copyFrom origin =>
    (s.cell? origin).map fun other =>
      (s.setCell cell (s.cursorAt other)).report cell .nothing []
  | .restart source =>
    let fresh := { s.addCell (.start source) with main := s.cells.length }
    some (fresh.report fresh.main .nothing [])
  | .stmt =>
    some (s.read s.main cell (asNode (·.map .stmt) (Parse.readStmt s.options (s.cursorAt s.main))))
  | .expr =>
    some (s.read s.main cell (asNode (·.map .expr) (Parse.readExpr s.options (s.cursorAt s.main))))
  | .program =>
    some (s.read s.main cell
      (asNode (some ∘ .program) (Parse.readProgram s.options (s.cursorAt s.main))))
  | .production p => some (s.read cell cell (p.read s.options (s.cursorAt cell)))
  | .closeStmt stop =>
    let (stop, c) := Parse.closeStmtAt stop (s.cursorAt cell)
    some ((s.setCell cell c).report cell (.stop stop) [])

/-- Takes a step on the cursor in a slot. -/
def step (s : Session) (slot : Slot) (what : Step) : Option (Session × Report) :=
  match s.cell? slot with
  | none => none
  | some cell => s.run cell what

end Session

end LetLang
