import LetLang.Source

/-!
# Texts

A text is what names, string values and printed programs are made of. It is a list of characters in
which a byte that belongs to no character may stand on its own, so that every byte string is a text
and the texts free of such bytes are the valid ones. Source text is always valid.
-/
namespace LetLang

/-- A character of a text, or a byte outside every character. -/
inductive Glyph where
  | char (c : Char)
  | stray (byte : UInt8)
deriving DecidableEq

namespace Glyph

/-- The source character a glyph reads as: a stray byte reads as U+FFFD. -/
def sourceChar : Glyph → SourceChar
  | .char c => .char c
  | .stray _ => .char '\uFFFD'

/-- The UTF-8 encoding of a glyph. -/
def bytes : Glyph → List UInt8
  | .char c => String.utf8EncodeChar c
  | .stray b => [b]

def byteCount : Glyph → Nat
  | .char c => c.utf8Size
  | .stray _ => 1

theorem length_bytes (g : Glyph) : g.bytes.length = g.byteCount := by
  cases g <;> simp [bytes, byteCount]

end Glyph

abbrev Text := List Glyph

namespace Text

def ofChars (cs : List Char) : Text :=
  cs.map .char

def ofString (s : String) : Text :=
  ofChars s.toList

/-- The characters of a text without stray bytes. -/
def chars? : Text → Option (List Char)
  | [] => some []
  | .char c :: t => (chars? t).map (c :: ·)
  | .stray _ :: _ => none

/-- A text as source characters. -/
def toSource (t : Text) : Source :=
  t.map Glyph.sourceChar

/-- The text of a list of source characters. -/
def ofSource (rs : Source) : Text :=
  ofChars (spell rs)

/-- The text of a delimiter that may be missing. -/
def ofDelimiter : Option SourceChar → Text
  | none => []
  | some r => ofSource [r]

/-- The UTF-8 encoding of a text. -/
def bytes (t : Text) : List UInt8 :=
  t.flatMap Glyph.bytes

def byteCount (t : Text) : Nat :=
  t.foldl (fun n g => n + g.byteCount) 0

@[simp] theorem ofChars_nil : ofChars [] = [] := rfl

@[simp] theorem ofChars_cons (c : Char) (cs : List Char) :
    ofChars (c :: cs) = .char c :: ofChars cs := rfl

@[simp] theorem ofChars_append (cs ds : List Char) :
    ofChars (cs ++ ds) = ofChars cs ++ ofChars ds := by
  simp [ofChars]

@[simp] theorem chars?_ofChars (cs : List Char) : chars? (ofChars cs) = some cs := by
  induction cs with
  | nil => rfl
  | cons c cs ih => simp [chars?, ih]

theorem eq_ofChars_of_chars? {t : Text} {cs : List Char} (h : t.chars? = some cs) :
    t = ofChars cs := by
  induction t generalizing cs with
  | nil => simp_all [chars?]
  | cons g t ih =>
    cases g with
    | char c =>
      obtain ⟨ds, hd, rfl⟩ := Option.map_eq_some_iff.mp h
      simp [ih hd]
    | stray b => simp [chars?] at h

/-- The valid texts are the lists of characters. -/
theorem chars?_eq_some_iff {t : Text} {cs : List Char} : t.chars? = some cs ↔ t = ofChars cs :=
  ⟨eq_ofChars_of_chars?, fun h => h ▸ chars?_ofChars cs⟩

theorem ofChars_inj {cs ds : List Char} : ofChars cs = ofChars ds ↔ cs = ds := by
  refine ⟨fun h => ?_, congrArg _⟩
  have := congrArg chars? h
  simpa using this

theorem foldl_byteCount (t : Text) (n : Nat) :
    t.foldl (fun n g => n + g.byteCount) n = n + t.bytes.length := by
  induction t generalizing n with
  | nil => rfl
  | cons g t ih =>
    rw [List.foldl_cons, ih, bytes, bytes, List.flatMap_cons, List.length_append, g.length_bytes]
    omega

theorem byteCount_eq (t : Text) : t.byteCount = t.bytes.length := by
  simp [byteCount, foldl_byteCount]

@[simp] theorem toSource_ofChars (cs : List Char) : (ofChars cs).toSource = cs.map .char := by
  simp [toSource, ofChars, Glyph.sourceChar]

end Text

end LetLang
