import LetLang.Token

/-!
# Described tokens

A token can also be described from outside, by the name of its class, its literal and its delimiter,
none of which need fit together. The typed views recover the member of a class that a description
stands for; they look at the first character of the literal only, except that a keyword is
recognised by its whole spelling.
-/
namespace LetLang

structure Kind where
  className : Text
  literal : Text
  quote : Option SourceChar
deriving DecidableEq

namespace Kind

def ofLexeme (x : Lexeme) : Kind where
  className := Text.ofString x.classOf.name
  literal := Text.ofChars x.literal
  quote := x.quote?.map Quote.sourceChar

/-- The description of a character that is a lexeme by itself. -/
def ofSourceChar? (r : SourceChar) : Option Kind :=
  r.lexeme?.map ofLexeme

def is (k : Kind) (className literal : Text) : Bool :=
  decide (k.className = className ∧ k.literal = literal)

def hasClass (k : Kind) (c : Lexeme.Class) : Bool :=
  decide (k.className = Text.ofString c.name)

/-- The member of class `c` that the first character of the literal stands for. -/
def view? {α : Type} (k : Kind) (c : Lexeme.Class) (ofChar? : Char → Option α) : Option α :=
  if k.hasClass c then
    match k.literal.head? with
    | none => none
    | some g => ofChar? g.sourceChar.toChar
  else none

def bracket? (k : Kind) : Option Bracket :=
  k.view? .bracket Bracket.ofChar?

def space? (k : Kind) : Option Space :=
  k.view? .space Space.ofChar?

def punct? (k : Kind) : Option Punct :=
  k.view? .punct Punct.ofChar?

def operator? (k : Kind) : Option Operator :=
  k.view? .operator Operator.ofChar?

def digit? (k : Kind) : Option Digit :=
  k.view? .digit Digit.ofChar?

def keyword? (k : Kind) : Option Keyword :=
  if k.hasClass .keyword then
    match k.literal.chars? with
    | none => none
    | some word => Keyword.ofWord? word
  else none

end Kind

/-- A line of a token listing: a description and its place. -/
structure Entry where
  kind : Kind
  span : Span
deriving DecidableEq

namespace Entry

def ofToken (t : Token) : Entry :=
  ⟨.ofLexeme t.lexeme, t.span⟩

def text (e : Entry) : Text :=
  Text.ofString ("Pos:" ++ e.span.string ++ ", Type:") ++ e.kind.className
    ++ Text.ofString ", Literal:\x60" ++ e.kind.literal ++ Text.ofString "\x60"

end Entry

end LetLang
