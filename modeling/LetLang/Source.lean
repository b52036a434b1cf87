/-!
# Source characters

A source is a list of 32-bit character codes. A code is usually a Unicode scalar value; the codes
that are not (negative ones, surrogates, codes above U+10FFFF) are carried along unchanged and are
written as U+FFFD when the source becomes text. `SourceChar.ofCode` and `SourceChar.code` are
inverse to each other, so a source is exactly a list of 32-bit codes.
-/
namespace LetLang

/-- A code that some Unicode character has. -/
def IsScalar (code : Int32) : Prop :=
  0 ≤ code.toInt ∧ code.toInt.toNat.isValidChar

instance (code : Int32) : Decidable (IsScalar code) :=
  inferInstanceAs (Decidable (_ ∧ _))

/-- One character of a source. -/
inductive SourceChar where
  | char (c : Char)
  | invalid (code : Int32) (not_scalar : ¬ IsScalar code)
deriving DecidableEq

namespace SourceChar

def ofCode (code : Int32) : SourceChar :=
  if h : IsScalar code then .char (Char.ofNat code.toInt.toNat) else .invalid code h

def code : SourceChar → Int32
  | .char c => Int32.ofNat c.toNat
  | .invalid n _ => n

/-- The character that a source character is written with in a text. -/
def toChar : SourceChar → Char
  | .char c => c
  | .invalid _ _ => '\uFFFD'

@[simp] theorem toChar_char (c : Char) : (SourceChar.char c).toChar = c := rfl

theorem toNat_lt_limit (c : Char) : c.toNat < 0x110000 := by
  have h : c.toNat.isValidChar := c.valid
  unfold Nat.isValidChar at h
  omega

theorem toNat_ofNat {n : Nat} (h : n.isValidChar) : (Char.ofNat n).toNat = n := by
  rw [Char.ofNat, dif_pos h]
  rfl

theorem toInt_code_char (c : Char) : (SourceChar.char c).code.toInt = c.toNat := by
  have h := toNat_lt_limit c
  simp only [code, Int32.toInt_ofNat']
  have size_eq : Int32.size = 4294967296 := rfl
  rw [Int.bmod_eq_of_le] <;> omega

theorem isScalar_code_char (c : Char) : IsScalar (SourceChar.char c).code := by
  have h : c.toNat.isValidChar := c.valid
  refine ⟨?_, ?_⟩ <;> rw [toInt_code_char]
  · omega
  · simpa using h

@[simp] theorem ofCode_code (r : SourceChar) : ofCode r.code = r := by
  cases r with
  | char c =>
    have h := toInt_code_char c
    simp only [ofCode, isScalar_code_char c, ↓reduceDIte, char.injEq]
    rw [h, Int.toNat_natCast, Char.ofNat_toNat]
  | invalid n h => simp [ofCode, code, h]

@[simp] theorem code_ofCode (n : Int32) : (ofCode n).code = n := by
  unfold ofCode
  split
  next h =>
    apply Int32.toInt_inj.mp
    rw [toInt_code_char, toNat_ofNat h.2]
    exact Int.toNat_of_nonneg h.1
  next => rfl

end SourceChar

abbrev Source := List SourceChar

/-- The characters that a source is written with. -/
def spell (rs : Source) : List Char :=
  rs.map SourceChar.toChar

@[simp] theorem spell_char (cs : List Char) : spell (cs.map .char) = cs := by
  simp [spell, Function.comp_def]

end LetLang
