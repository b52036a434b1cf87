import LetLang.Parse
import LetLang.Tree.Layout

/-!
# Reformatting

A round reads a source as a program and writes what was read in some style; the next round reads the
text of the last one. Reading stops at the first error, so a round keeps the statements before it.
-/
namespace LetLang

/-- A program as it was read, and its text. -/
structure Round where
  read : Parsed Program
  text? : Option Text

/-- Reads a source and writes it in a style. -/
def reformat (o : Parse.Options) (style : Style) (source : Source) : Round :=
  let read := parse o source
  ⟨read, (Node.program read.tree).text? style []⟩

/-- One round after another, each on the text of the one before. -/
def rounds (o : Parse.Options) (source : Source) : List Style → List Round
  | [] => []
  | style :: styles =>
    let round := reformat o style source
    match round.text? with
    | none => [round]
    | some t => round :: rounds o t.toSource styles

end LetLang
