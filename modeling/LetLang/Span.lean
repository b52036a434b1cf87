import LetLang.Text
import LetLang.Decimal

/-!
# Spans

A span is a closed range of character positions. Positions are 64-bit signed words, and the only
arithmetic on them, the length, wraps around.
-/
namespace LetLang

/-- The characters from `start` to `stop`, both included. -/
structure Span where
  start : Int
  stop : Int
deriving DecidableEq

namespace Span

/-- How many characters a span covers, in 64-bit arithmetic. -/
def length (s : Span) : Int :=
  Int.bmod (s.stop - s.start + 1) UInt64.size

/-- The text a span covers, unless it reaches outside the source. -/
def text? (s : Span) (source : Source) : Option Text :=
  if 0 ≤ s.start ∧ s.start ≤ s.stop ∧ s.stop < source.length then
    some (Text.ofSource ((source.drop s.start.toNat).take (s.stop.toNat + 1 - s.start.toNat)))
  else none

def contains (s : Span) (offset : Int) : Bool :=
  decide (s.start ≤ offset ∧ offset ≤ s.stop)

def string (s : Span) : String :=
  Decimal.string s.start ++ ".." ++ Decimal.string s.stop

end Span

end LetLang
