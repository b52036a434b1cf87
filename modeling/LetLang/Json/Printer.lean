import LetLang.Decimal
import LetLang.Json.Encoder

/-!
# A printer of JSON

One encoder, which prints a document in one line or indented. The two forms differ in the blanks between
tokens only, so one printer takes what to put there as a parameter. A document that opens more than ten
thousand arrays and objects inside one another, or that has a text with stray bytes, cannot be
encoded; of two faults the one that stands first in the document counts.

What is proved about encoded trees is proved for every encoder that keeps the rules; that this one does
is proved in its turn.
-/
namespace LetLang

namespace Json

/-! ## Strings -/

def hexDigit (n : Nat) : Char :=
  if n < 10 then Char.ofNat (48 + n) else Char.ofNat (87 + n)

/-- Only the double quote, the backslash and control characters are escaped. -/
def escape (c : Char) : List Char :=
  if c = '\x22' then ['\\', '\x22']
  else if c = '\\' then ['\\', '\\']
  else if c.toNat = 8 then ['\\', 'b']
  else if c.toNat = 9 then ['\\', 't']
  else if c.toNat = 10 then ['\\', 'n']
  else if c.toNat = 12 then ['\\', 'f']
  else if c.toNat = 13 then ['\\', 'r']
  else if c.toNat < 32 then
    ['\\', 'u', '0', '0', hexDigit (c.toNat / 16), hexDigit (c.toNat % 16)]
  else [c]

/-- A text in quotes, followed by `tail`. A stray byte is written as U+FFFD. -/
def writeText (s : Text) (tail : List Char) : List Char :=
  '\x22' :: (s.flatMap (fun g => escape g.sourceChar.toChar) ++ '\x22' :: tail)

/-! ## Layout -/

/-- What is put between the tokens: at the start of a line of some depth, and after a colon. -/
structure Layout where
  line : Nat → List Char
  gap : List Char

def Layout.compact : Layout :=
  ⟨fun _ => [], []⟩

/-- Two blanks for every level. -/
def Layout.indented : Layout :=
  ⟨fun depth => '\n' :: List.replicate (2 * depth) ' ', [' ']⟩

mutual

/-- A document at a depth, followed by `tail`. -/
def write (layout : Layout) (depth : Nat) : Json → List Char → List Char
  | .null, tail => "null".toList ++ tail
  | .bool true, tail => "true".toList ++ tail
  | .bool false, tail => "false".toList ++ tail
  | .num n, tail => Decimal.ofInt n ++ tail
  | .str s, tail => writeText s tail
  | .arr [], tail => '[' :: ']' :: tail
  | .arr (j :: js), tail =>
    '[' :: (layout.line (depth + 1) ++ j.write layout (depth + 1) (writeItems layout depth js tail))
  | .obj [], tail => '\x7b' :: '\x7d' :: tail
  | .obj ((k, j) :: ms), tail =>
    '\x7b' :: (layout.line (depth + 1) ++ writeText (Text.ofString k) (':' :: (layout.gap ++
      j.write layout (depth + 1) (writeMembers layout depth ms tail))))

/-- The items after the first, the end of the array and `tail`. -/
def writeItems (layout : Layout) (depth : Nat) : List Json → List Char → List Char
  | [], tail => layout.line depth ++ ']' :: tail
  | j :: js, tail =>
    ',' :: (layout.line (depth + 1) ++ j.write layout (depth + 1) (writeItems layout depth js tail))

/-- The members after the first, the end of the object and `tail`. -/
def writeMembers (layout : Layout) (depth : Nat) : List (String × Json) → List Char → List Char
  | [], tail => layout.line depth ++ '\x7d' :: tail
  | (k, j) :: ms, tail =>
    ',' :: (layout.line (depth + 1) ++ writeText (Text.ofString k) (':' :: (layout.gap ++
      j.write layout (depth + 1) (writeMembers layout depth ms tail))))

end

/-! ## Faults -/

/-- Why a document is not encoded. -/
inductive Fault where
  | tooDeep
  | invalidText
  | sink (reason : String)
deriving DecidableEq

def Fault.reason : Fault → String
  | .tooDeep => "jsontext: exceeded max depth"
  | .invalidText => "jsontext: invalid UTF-8 within string"
  | .sink reason => "jsontext: write error: " ++ reason

def Fault.message (f : Fault) : String :=
  failure f.reason

/-- How many arrays and objects may be open at once. -/
def maxDepth : Nat := 10000

mutual

/-- The first fault of a document that stands inside `depth` others. -/
def fault? (depth : Nat) : Json → Option Fault
  | .null | .bool _ | .num _ => none
  | .str s => if s.chars?.isSome then none else some .invalidText
  | .arr items => if depth < maxDepth then faultItems? (depth + 1) items else some .tooDeep
  | .obj members => if depth < maxDepth then faultMembers? (depth + 1) members else some .tooDeep

def faultItems? (depth : Nat) : List Json → Option Fault
  | [] => none
  | j :: js =>
    match j.fault? depth with
    | some f => some f
    | none => faultItems? depth js

def faultMembers? (depth : Nat) : List (String × Json) → Option Fault
  | [] => none
  | (_, j) :: ms =>
    match j.fault? depth with
    | some f => some f
    | none => faultMembers? depth ms

end

end Json

end LetLang
