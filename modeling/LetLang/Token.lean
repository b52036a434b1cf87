import LetLang.Span
import LetLang.Lexeme.Scan

/-!
# Tokens

A token is a lexeme with the positions of its first and last character. The tokens of a source are
its lexemes one after another, as far as one can be read.
-/
namespace LetLang

structure Token where
  lexeme : Lexeme
  first : Nat
  last : Nat
deriving DecidableEq

namespace Token

def span (t : Token) : Span :=
  ⟨t.first, t.last⟩

/-- Whether the text a token covers, read on its own, starts with the same lexeme. -/
def readsBack (t : Token) (source : Source) : Bool :=
  match t.span.text? source with
  | none => false
  | some text =>
    match scan text.toSource with
    | none => false
    | some (x, _) => decide (x = t.lexeme)

end Token

/-- The tokens of the source characters `rs`, the first of which has position `pos`. -/
def tokensFrom (pos : Nat) (rs : Source) : List Token :=
  match _h : scan rs with
  | none => []
  | some (x, n) => ⟨x, pos, pos + n - 1⟩ :: tokensFrom (pos + n) (rs.drop n)
termination_by rs.length
decreasing_by
  have := scan_width _h
  simp only [List.length_drop]
  omega

theorem tokensFrom_of_none {pos : Nat} {rs : Source} (h : scan rs = none) :
    tokensFrom pos rs = [] := by
  rw [tokensFrom]
  split
  next => rfl
  next h' => simp [h] at h'

theorem tokensFrom_of_some {pos : Nat} {rs : Source} {x : Lexeme} {n : Nat}
    (h : scan rs = some (x, n)) :
    tokensFrom pos rs = ⟨x, pos, pos + n - 1⟩ :: tokensFrom (pos + n) (rs.drop n) := by
  rw [tokensFrom]
  split
  next h' => simp [h] at h'
  next y m h' =>
    rw [h] at h'
    cases h'
    rfl

end LetLang
