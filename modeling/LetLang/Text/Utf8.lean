import LetLang.Text

/-!
# Reading UTF-8

`Text.ofBytes` reads a byte string as a text. A byte that does not begin the encoding of a
character (a continuation byte, an unfinished or overlong form, a surrogate, a code above U+10FFFF)
becomes a stray byte, and reading goes on with the byte after it.
-/
namespace LetLang

namespace Utf8

/-- What a first byte announces: its payload, the number of continuation bytes, and the least code
whose encoding has that length. -/
structure Lead where
  payload : Nat
  more : Nat
  least : Nat

def lead? (b : UInt8) : Option Lead :=
  let n := b.toNat
  if n < 0x80 then some ⟨n, 0, 0⟩
  else if n < 0xC0 then none
  else if n < 0xE0 then some ⟨n - 0xC0, 1, 0x80⟩
  else if n < 0xF0 then some ⟨n - 0xE0, 2, 0x800⟩
  else if n < 0xF8 then some ⟨n - 0xF0, 3, 0x10000⟩
  else none

/-- The code made of a payload and that many continuation bytes. -/
def code? (payload : Nat) : Nat → List UInt8 → Option Nat
  | 0, _ => some payload
  | _ + 1, [] => none
  | more + 1, b :: rest =>
    if 0x80 ≤ b.toNat ∧ b.toNat < 0xC0 then code? (payload * 64 + (b.toNat - 0x80)) more rest
    else none

/-- The character that starts with byte `b`, and how many of the bytes after it belong to it. -/
def first? (b : UInt8) (rest : List UInt8) : Option (Char × Nat) :=
  match lead? b with
  | none => none
  | some lead =>
    match code? lead.payload lead.more rest with
    | none => none
    | some code =>
      if lead.least ≤ code ∧ code.isValidChar then some (Char.ofNat code, lead.more) else none

end Utf8

/-- The text that a byte string encodes. -/
def Text.ofBytes : List UInt8 → Text
  | [] => []
  | b :: rest =>
    match Utf8.first? b rest with
    | some (c, more) => .char c :: Text.ofBytes (rest.drop more)
    | none => .stray b :: Text.ofBytes rest
termination_by bs => bs.length
decreasing_by
  · simp only [List.length_drop, List.length_cons]
    omega
  · simp

end LetLang
