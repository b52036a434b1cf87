import LetLang.Text
import LetLang.Decimal
import LetLang.Lexeme.Character

/-!
# Lexemes

A lexeme is a token without its place. A character of one of the classes is a lexeme by itself; a
quoted text is one together with its two delimiters; any other run of characters is a word, which
is a keyword if it is spelled like one and an identifier otherwise.
-/
namespace LetLang

inductive Keyword where
  | letKw
  | fnKw
  | ifKw
  | stateKw
  | trueKw
  | falseKw
deriving DecidableEq

namespace Keyword

def members : List Keyword :=
  [.letKw, .fnKw, .ifKw, .stateKw, .trueKw, .falseKw]

def spelling : Keyword → List Char
  | .letKw => ['l', 'e', 't']
  | .fnKw => ['f', 'n']
  | .ifKw => ['i', 'f']
  | .stateKw => ['s', 't', 'a', 't', 'e']
  | .trueKw => ['t', 'r', 'u', 'e']
  | .falseKw => ['f', 'a', 'l', 's', 'e']

def ofWord? (word : List Char) : Option Keyword :=
  members.find? fun k => decide (k.spelling = word)

theorem spelling_of_ofWord? {word : List Char} {k : Keyword} (h : ofWord? word = some k) :
    k.spelling = word := by
  simpa using List.find?_some h

theorem ofWord?_spelling (k : Keyword) : ofWord? k.spelling = some k := by
  cases k <;> decide

theorem ofWord?_eq_some_iff {word : List Char} {k : Keyword} :
    ofWord? word = some k ↔ k.spelling = word :=
  ⟨spelling_of_ofWord?, fun h => h ▸ ofWord?_spelling k⟩

end Keyword

/-- What a token is, without where it stands. -/
inductive Lexeme where
  | bracket (b : Bracket)
  | space (s : Space)
  | punct (p : Punct)
  | operator (o : Operator)
  | digit (d : Digit)
  | keyword (k : Keyword)
  | ident (name : List Char)
  | quoted (q : Quote) (text : List Char)
deriving DecidableEq

namespace Lexeme

/-- The classes of lexemes. -/
inductive Class where
  | bracket
  | space
  | punct
  | keyword
  | ident
  | operator
  | digit
  | quoted
deriving DecidableEq

def Class.name : Class → String
  | .bracket => "BRACKET"
  | .space => "SPACE"
  | .punct => "PUNCT"
  | .keyword => "KEYWORD"
  | .ident => "IDENT"
  | .operator => "OPERATOR"
  | .digit => "DIGIT"
  | .quoted => "SEPARATION"

def classOf : Lexeme → Class
  | .bracket _ => .bracket
  | .space _ => .space
  | .punct _ => .punct
  | .operator _ => .operator
  | .digit _ => .digit
  | .keyword _ => .keyword
  | .ident _ => .ident
  | .quoted _ _ => .quoted

/-- The text a lexeme carries; that of a quoted text is without its delimiters. -/
def literal : Lexeme → List Char
  | .bracket b => [b.char]
  | .space s => [s.char]
  | .punct p => [p.char]
  | .operator o => [o.char]
  | .digit d => [d.toChar]
  | .keyword k => k.spelling
  | .ident name => name
  | .quoted _ text => text

def quote? : Lexeme → Option Quote
  | .quoted q _ => some q
  | _ => none

/-- How a lexeme is written in a source. -/
def spelling : Lexeme → List Char
  | .quoted q text => q.char :: (text ++ [q.char])
  | x => x.literal

def isSpace : Lexeme → Bool
  | .space _ => true
  | _ => false

def isSemicolon (x : Lexeme) : Bool :=
  decide (x = .punct .semicolon)

/-- The lexeme that a character is by itself. -/
def ofChar? (c : Char) : Option Lexeme :=
  (Bracket.ofChar? c).map .bracket
    |>.or ((Space.ofChar? c).map .space)
    |>.or ((Punct.ofChar? c).map .punct)
    |>.or ((Digit.ofChar? c).map .digit)
    |>.or ((Operator.ofChar? c).map .operator)

/-- The lexeme of a run of characters that stand for nothing by themselves. -/
def ofWord (word : List Char) : Lexeme :=
  match Keyword.ofWord? word with
  | some k => .keyword k
  | none => .ident word

@[simp] theorem literal_ofWord (word : List Char) : (ofWord word).literal = word := by
  unfold ofWord
  split
  next k h => exact Keyword.spelling_of_ofWord? h
  next => rfl

@[simp] theorem spelling_ofWord (word : List Char) : (ofWord word).spelling = word := by
  have h := literal_ofWord word
  unfold ofWord at h ⊢
  split <;> simp_all [spelling]

theorem literal_of_ofChar? {c : Char} {x : Lexeme} (h : ofChar? c = some x) : x.literal = [c] := by
  simp only [ofChar?, Option.or_eq_some_iff, Option.map_eq_some_iff] at h
  obtain ((((⟨b, hb, rfl⟩ | ⟨-, s, hs, rfl⟩) | ⟨-, p, hp, rfl⟩) | ⟨-, d, hd, rfl⟩)
    | ⟨-, o, ho, rfl⟩) := h
  · simp [literal, Bracket.ofChar?_eq_some_iff.mp hb]
  · simp [literal, Space.ofChar?_eq_some_iff.mp hs]
  · simp [literal, Punct.ofChar?_eq_some_iff.mp hp]
  · simp [literal, Digit.ofChar?_eq_some_iff.mp hd]
  · simp [literal, Operator.ofChar?_eq_some_iff.mp ho]

end Lexeme

namespace SourceChar

/-- The lexeme that a source character is by itself. -/
def lexeme? : SourceChar → Option Lexeme
  | .char c => Lexeme.ofChar? c
  | .invalid _ _ => none

/-- A character that can stand inside a word. -/
def inWord (r : SourceChar) : Bool :=
  r.lexeme?.isNone

def quote? : SourceChar → Option Quote
  | .char c => Quote.ofChar? c
  | .invalid _ _ => none

theorem quote?_eq_some_iff {r : SourceChar} {q : Quote} : r.quote? = some q ↔ r = q.sourceChar := by
  cases r with
  | char c =>
    simp only [quote?, Quote.ofChar?_eq_some_iff, Quote.sourceChar, SourceChar.char.injEq]
    exact eq_comm
  | invalid n h => simp [quote?, Quote.sourceChar]

end SourceChar

end LetLang
