import LetLang.Decimal
import LetLang.Json.Encoder

/-!
# How JSON is spelled

The grammar of compact JSON as relations between marks and characters. A number is spelled in decimal.
In a string every character but the double quote, the backslash and the control characters may stand
for itself, and every character may be escaped: some by a letter behind a backslash, and any by the
four hexadecimal digits of its code, or eight in two halves above U+FFFF. So a string can be spelled in
many ways. A text with stray bytes is spelled in none.
-/
namespace LetLang.Json

/-! ## Strings -/

def hexValue? (c : Char) : Option Nat :=
  if 48 ≤ c.toNat ∧ c.toNat < 58 then some (c.toNat - 48)
  else if 97 ≤ c.toNat ∧ c.toNat < 103 then some (c.toNat - 87)
  else if 65 ≤ c.toNat ∧ c.toNat < 71 then some (c.toNat - 55)
  else none

/-- The number that four hexadecimal digits denote. -/
def hexCode? (a b c d : Char) : Option Nat :=
  match hexValue? a, hexValue? b, hexValue? c, hexValue? d with
  | some w, some x, some y, some z => some (w * 4096 + x * 256 + y * 16 + z)
  | _, _, _, _ => none

/-- The characters that are escaped by a letter, with the letters. -/
def letters : List (Char × Char) :=
  [('\x22', '\x22'), ('\\', '\\'), ('/', '/'), ('b', '\x08'), ('f', '\x0c'), ('n', '\n'), ('r', '\x0d'),
    ('t', '\t')]

/-- A way to write a character inside a string. -/
inductive Escapes : Char → List Char → Prop
  | plain {c : Char} (control : 32 ≤ c.toNat) (quote : c ≠ '\x22') (slash : c ≠ '\\') : Escapes c [c]
  | letter {c l : Char} (listed : letters.lookup l = some c) : Escapes c ['\\', l]
  | code {c w x y z : Char} (value : hexCode? w x y z = some c.toNat) :
    Escapes c ['\\', 'u', w, x, y, z]
  | halves {c w x y z w' x' y' z' : Char} {high low : Nat} (upper : hexCode? w x y z = some high)
    (lower : hexCode? w' x' y' z' = some low) (isHigh : 0xD800 ≤ high ∧ high < 0xDC00)
    (isLow : 0xDC00 ≤ low ∧ low < 0xE000)
    (value : c.toNat = 0x10000 + (high - 0xD800) * 0x400 + (low - 0xDC00)) :
    Escapes c ['\\', 'u', w, x, y, z, '\\', 'u', w', x', y', z']

/-- A way to write characters between the quotes of a string. -/
inductive Inside : List Char → List Char → Prop
  | nil : Inside [] []
  | cons {c : Char} {cs written rest : List Char} (first : Escapes c written) (others : Inside cs rest) :
    Inside (c :: cs) (written ++ rest)

/-! ## Documents -/

/-- A way to write a mark. -/
inductive Mark.Spelled : Mark → List Char → Prop
  | null : Spelled .null "null".toList
  | bool (b : Bool) : Spelled (.bool b) (if b then "true" else "false").toList
  | num (n : Int) : Spelled (.num n) (Decimal.ofInt n)
  | str {cs inside : List Char} (h : Inside cs inside) :
    Spelled (.str (Text.ofChars cs)) ('\x22' :: (inside ++ ['\x22']))
  | name {key : String} {inside : List Char} (h : Inside key.toList inside) :
    Spelled (.name key) ('\x22' :: (inside ++ ['\x22']))
  | opening (isObject : Bool) : Spelled (.opening isObject) [if isObject then '\x7b' else '[']
  | closing (isObject : Bool) : Spelled (.closing isObject) [if isObject then '\x7d' else ']']

/-- A way to write marks at a place, with nothing but separators between them. -/
inductive Chain : Place → List Mark → List Char → Prop
  | nil (place : Place) : Chain place [] []
  | cons {place : Place} {m : Mark} {ms : List Mark} {body rest : List Char} (first : m.Spelled body)
    (others : Chain m.placeBehind ms rest) : Chain place (m :: ms) (separator place m ++ body ++ rest)

/-- The text is one of the document, in one line. -/
def Denotes (text : List Char) (j : Json) : Prop :=
  Chain .start j.marks text

end LetLang.Json
