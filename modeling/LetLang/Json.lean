import LetLang.Text

/-!
# JSON documents

A document is a value with its parts in the order in which they are written. The members of an object
are a list, so their order counts, and a key may be any string.
-/
namespace LetLang

inductive Json where
  | null
  | bool (b : Bool)
  | num (n : Int)
  | str (s : Text)
  | arr (items : List Json)
  | obj (members : List (String × Json))

end LetLang
