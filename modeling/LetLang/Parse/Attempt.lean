import LetLang.Note
import LetLang.Token

/-!
# Attempts

A production is tried on a list of tokens. It either matches, with a result and a strictly shorter
list of tokens left, or it does not match and nothing is consumed; in both cases it leaves notes.
-/
namespace LetLang.Parse

/-- What trying a production on the tokens `ts` gives. -/
structure Attempt (α : Type) (ts : List Token) where
  log : Log
  result : Option (α × { left : List Token // left.length < ts.length })

/-- What a repeated production gives: it matches any number of times. -/
structure Repeated (α : Type) (ts : List Token) where
  log : Log
  results : List α
  left : { left : List Token // left.length ≤ ts.length }

/-- An attempt without the bound on what is left. -/
structure Outcome (α : Type) where
  log : Log
  result : Option (α × List Token)

namespace Attempt

def fail {α : Type} {ts : List Token} (log : Log) : Attempt α ts :=
  ⟨log, none⟩

def outcome {α : Type} {ts : List Token} (a : Attempt α ts) : Outcome α :=
  ⟨a.log, a.result.map fun m => (m.1, m.2.val)⟩

end Attempt

namespace Outcome

def map {α β : Type} (f : α → β) (o : Outcome α) : Outcome β :=
  ⟨o.log, o.result.map fun m => (f m.1, m.2)⟩

end Outcome

/-! ## Spaces -/

/-- The tokens after the spaces at the front. -/
def skipSpaces (ts : List Token) : List Token :=
  ts.dropWhile fun t => t.lexeme.isSpace

theorem length_skipSpaces_le (ts : List Token) : (skipSpaces ts).length ≤ ts.length :=
  (List.dropWhile_sublist _).length_le

theorem length_lt_of_skipSpaces {ts rest : List Token} {t : Token} (h : skipSpaces ts = t :: rest) :
    rest.length < ts.length := by
  have := length_skipSpaces_le ts
  rw [h, List.length_cons] at this
  omega

end LetLang.Parse
