import LetLang.Json.Spelling
import LetLang.Tree.Document

/-!
# Trees as JSON text

A tree is encoded by encoding its document. Which encoder does that is left open; `InOrder`, `Refuses`,
`Spells` and `Indents` say what may be relied on. They only speak of marks that can come up: those of the
documents of nodes.
-/
namespace LetLang

/-- The text of a node in one line, or what is said if there is none. There is neither if the tree has
no document. -/
def Node.marshal? (encode : Json.Encoder) (n : Node) : Option (Except String (List Char)) :=
  n.document?.map fun j => (encode .compact j).mapError Json.failure

/-- The indented text of a node. -/
def Node.marshalIndented? (encode : Json.Encoder) (n : Node) : Option (Except String (List Char)) :=
  n.document?.map fun j => (encode .indented j).mapError Json.failure

namespace Json

/-- The mark stands behind the marks `done` in the document of some node. -/
def Mark.Occurs (m : Mark) (done : List Mark) : Prop :=
  ∃ (n : Node) (j : Json) (rest : List Mark), n.document? = some j ∧ j.marks = done ++ m :: rest

/-- The marks of a document are written in their order, up to the first that is refused. -/
def Encoder.InOrder (encode : Encoder) (write : Writer) : Prop :=
  ∀ (mode : Mode) (n : Node) (j : Json), n.document? = some j →
    encode mode j = write.run mode [] j.marks

namespace Writer

/-- A mark is refused, in both modes, exactly for its depth or for stray bytes. -/
structure Refuses (write : Writer) : Prop where
  refused : ∀ (mode : Mode) (done : List Mark) (m : Mark) (reason : String), m.Occurs done →
    m.refusal? (opened done) = some reason → write mode done m = .error reason
  written : ∀ (mode : Mode) (done : List Mark) (m : Mark), m.Occurs done →
    m.refusal? (opened done) = none → ∃ text, write mode done m = .ok text

/-- In one line, a mark that is written is spelled as in the grammar of JSON, behind its separator. -/
def Spells (write : Writer) : Prop :=
  ∀ (done : List Mark) (m : Mark) (text : List Char), m.Occurs done →
    write .compact done m = .ok text →
    ∃ body, m.Spelled body ∧ text = separator (placeAfter done) m ++ body

/-- Indented, a mark is written as in one line, except that there may be blanks and line ends around
its separator. -/
def Indents (write : Writer) : Prop :=
  ∀ (done : List Mark) (m : Mark) (line lines : List Char), m.Occurs done →
    write .compact done m = .ok line → write .indented done m = .ok lines →
    ∃ before behind body, line = separator (placeAfter done) m ++ body ∧
      lines = before ++ separator (placeAfter done) m ++ behind ++ body ∧
      ∀ c ∈ before ++ behind, c = ' ' ∨ c = '\n'

end Writer

end Json

end LetLang
