import LetLang.Source

/-!
# Characters with a meaning of their own

Brackets, spaces, punctuation and operators stand for themselves wherever they occur; a quote opens
a quoted text. Each class lists its members with a character for each, and reads a member back from
its character. Only blank, newline and tab are spaces.
-/
namespace LetLang

/-- The member of a class that is written with the character `c`. -/
def memberOf? {α : Type} (members : List α) (char : α → Char) (c : Char) : Option α :=
  members.find? fun x => decide (char x = c)

theorem memberOf?_eq_some_iff {α : Type} {members : List α} {char : α → Char}
    (complete : ∀ x, x ∈ members) (distinct : ∀ x y, char x = char y → x = y) {c : Char} {x : α} :
    memberOf? members char c = some x ↔ char x = c := by
  have written {y : α} (h : memberOf? members char c = some y) : char y = c := by
    simpa using List.find?_some h
  refine ⟨written, fun h => ?_⟩
  cases found : memberOf? members char c with
  | none =>
    have := List.find?_eq_none.mp found x (complete x)
    simp [h] at this
  | some y => rw [distinct y x ((written found).trans h.symm)]

inductive Bracket.Shape where
  | paren
  | curly
  | square
  | angle
deriving DecidableEq

structure Bracket where
  shape : Bracket.Shape
  isOpen : Bool
deriving DecidableEq

namespace Bracket

def members : List Bracket :=
  [⟨.paren, true⟩, ⟨.paren, false⟩, ⟨.curly, true⟩, ⟨.curly, false⟩,
    ⟨.square, true⟩, ⟨.square, false⟩, ⟨.angle, true⟩, ⟨.angle, false⟩]

def char : Bracket → Char
  | ⟨.paren, true⟩ => '('
  | ⟨.paren, false⟩ => ')'
  | ⟨.curly, true⟩ => '\x7b'
  | ⟨.curly, false⟩ => '\x7d'
  | ⟨.square, true⟩ => '['
  | ⟨.square, false⟩ => ']'
  | ⟨.angle, true⟩ => '<'
  | ⟨.angle, false⟩ => '>'

def ofChar? : Char → Option Bracket :=
  memberOf? members char

theorem mem_members : ∀ b : Bracket, b ∈ members := by
  rintro ⟨shape, isOpen⟩
  cases shape <;> cases isOpen <;> decide

theorem char_inj : ∀ b b' : Bracket, b.char = b'.char → b = b' := by
  rintro ⟨shape, isOpen⟩ ⟨shape', isOpen'⟩
  cases shape <;> cases isOpen <;> cases shape' <;> cases isOpen' <;> decide

theorem ofChar?_eq_some_iff {c : Char} {b : Bracket} : ofChar? c = some b ↔ b.char = c :=
  memberOf?_eq_some_iff mem_members char_inj

end Bracket

inductive Space where
  | blank
  | newline
  | tab
deriving DecidableEq

namespace Space

def members : List Space :=
  [.blank, .newline, .tab]

def char : Space → Char
  | .blank => ' '
  | .newline => '\n'
  | .tab => '\t'

def ofChar? : Char → Option Space :=
  memberOf? members char

theorem ofChar?_eq_some_iff {c : Char} {s : Space} : ofChar? c = some s ↔ s.char = c :=
  memberOf?_eq_some_iff (by intro x; cases x <;> decide)
    (by intro x y; cases x <;> cases y <;> decide)

end Space

inductive Punct where
  | comma
  | fullStop
  | semicolon
deriving DecidableEq

namespace Punct

def members : List Punct :=
  [.comma, .fullStop, .semicolon]

def char : Punct → Char
  | .comma => ','
  | .fullStop => '.'
  | .semicolon => ';'

def ofChar? : Char → Option Punct :=
  memberOf? members char

theorem ofChar?_eq_some_iff {c : Char} {p : Punct} : ofChar? c = some p ↔ p.char = c :=
  memberOf?_eq_some_iff (by intro x; cases x <;> decide)
    (by intro x y; cases x <;> cases y <;> decide)

end Punct

inductive Operator where
  | equal
  | slash
deriving DecidableEq

namespace Operator

def members : List Operator :=
  [.equal, .slash]

def char : Operator → Char
  | .equal => '='
  | .slash => '/'

def ofChar? : Char → Option Operator :=
  memberOf? members char

theorem ofChar?_eq_some_iff {c : Char} {o : Operator} : ofChar? c = some o ↔ o.char = c :=
  memberOf?_eq_some_iff (by intro x; cases x <;> decide)
    (by intro x y; cases x <;> cases y <;> decide)

end Operator

/-- The three delimiters of a quoted text. -/
inductive Quote where
  | single
  | double
  | backtick
deriving DecidableEq

namespace Quote

def members : List Quote :=
  [.single, .double, .backtick]

def char : Quote → Char
  | .single => '\x27'
  | .double => '\x22'
  | .backtick => '\x60'

def ofChar? : Char → Option Quote :=
  memberOf? members char

theorem ofChar?_eq_some_iff {c : Char} {q : Quote} : ofChar? c = some q ↔ q.char = c :=
  memberOf?_eq_some_iff (by intro x; cases x <;> decide)
    (by intro x y; cases x <;> cases y <;> decide)

/-- The delimiter as a source character. -/
def sourceChar (q : Quote) : SourceChar :=
  .char q.char

end Quote

end LetLang
