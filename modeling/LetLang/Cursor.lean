import LetLang.Token

/-!
# Cursors

A cursor is a source with the position of the next character to read. It reads characters, or whole
tokens: `next?` gives the token at the cursor and the cursor behind it, and the skipping operations
repeat it as long as a condition holds. `tokens` is the list of all that `next?` would give.
-/
namespace LetLang

structure Cursor where
  source : Source
  pos : Nat
deriving DecidableEq

namespace Cursor

/-- A cursor before the first character. -/
def start (source : Source) : Cursor :=
  ⟨source, 0⟩

/-- The characters that are left. -/
def rest (c : Cursor) : Source :=
  c.source.drop c.pos

def atEnd (c : Cursor) : Bool :=
  decide (c.source.length ≤ c.pos)

/-! ## Characters -/

def first? (c : Cursor) : Option SourceChar :=
  c.source[c.pos]?

def second? (c : Cursor) : Option SourceChar :=
  c.source[c.pos + 1]?

/-- The next character, and the cursor behind it. At the end the cursor stays. -/
def advance (c : Cursor) : Option SourceChar × Cursor :=
  match c.first? with
  | none => (none, c)
  | some r => (some r, ⟨c.source, c.pos + 1⟩)

/-! ## Tokens -/

/-- The token at the cursor, and the cursor behind it. -/
def next? (c : Cursor) : Option (Token × Cursor) :=
  match scan c.rest with
  | none => none
  | some (x, n) => some (⟨x, c.pos, c.pos + n - 1⟩, ⟨c.source, c.pos + n⟩)

def peek? (c : Cursor) : Option Token :=
  c.next?.map Prod.fst

/-- All tokens from the cursor on. -/
def tokens (c : Cursor) : List Token :=
  tokensFrom c.pos c.rest

theorem next?_advances {c d : Cursor} {t : Token} (h : c.next? = some (t, d)) :
    d.source = c.source ∧ c.pos < d.pos ∧ d.pos ≤ d.source.length := by
  simp only [next?] at h
  split at h
  next => cases h
  next x n hs =>
    cases h
    have hw := scan_width hs
    simp only [rest, List.length_drop] at hw
    exact ⟨rfl, by simp only; omega, by simp only; omega⟩

theorem tokens_of_next?_none {c : Cursor} (h : c.next? = none) : c.tokens = [] := by
  unfold next? at h
  split at h
  next hs => exact tokensFrom_of_none hs
  next => cases h

theorem tokens_of_next?_some {c d : Cursor} {t : Token} (h : c.next? = some (t, d)) :
    c.tokens = t :: d.tokens := by
  unfold next? at h
  split at h
  next => cases h
  next x n hs =>
    cases h
    rw [tokens, tokensFrom_of_some hs, tokens, rest, rest, List.drop_drop]

/-- Passes over the tokens of the characters `rs`, the first of which has position `pos`, as long as
they satisfy `p`. Gives the last one passed and the position behind it. -/
def skipFrom (p : Lexeme → Bool) (pos : Nat) (rs : Source) : Option Token × Nat :=
  match _h : scan rs with
  | none => (none, pos)
  | some (x, n) =>
    if p x then
      match skipFrom p (pos + n) (rs.drop n) with
      | (last, stop) => (last.or (some ⟨x, pos, pos + n - 1⟩), stop)
    else (none, pos)
termination_by rs.length
decreasing_by
  have := scan_width _h
  simp only [List.length_drop]
  omega

theorem skipFrom_of_none {p : Lexeme → Bool} {pos : Nat} {rs : Source} (h : scan rs = none) :
    skipFrom p pos rs = (none, pos) := by
  rw [skipFrom]
  split
  next => rfl
  next h' => simp [h] at h'

theorem skipFrom_of_some {p : Lexeme → Bool} {pos : Nat} {rs : Source} {x : Lexeme} {n : Nat}
    (h : scan rs = some (x, n)) :
    skipFrom p pos rs =
      if p x then
        ((skipFrom p (pos + n) (rs.drop n)).1.or (some ⟨x, pos, pos + n - 1⟩),
          (skipFrom p (pos + n) (rs.drop n)).2)
      else (none, pos) := by
  rw [skipFrom]
  split
  next h' => simp [h] at h'
  next y m h' =>
    rw [h] at h'
    cases h'
    rfl

/-- Passes over tokens as long as they satisfy `p`. Gives the last one passed. -/
def skipWhile (p : Lexeme → Bool) (c : Cursor) : Option Token × Cursor :=
  match skipFrom p c.pos c.rest with
  | (last, stop) => (last, ⟨c.source, stop⟩)

theorem skipWhile_of_next?_none {p : Lexeme → Bool} {c : Cursor} (h : c.next? = none) :
    c.skipWhile p = (none, c) := by
  unfold next? at h
  split at h
  next hs => rw [skipWhile, skipFrom_of_none hs]
  next => cases h

theorem skipWhile_of_next?_some {p : Lexeme → Bool} {c d : Cursor} {t : Token}
    (h : c.next? = some (t, d)) :
    c.skipWhile p =
      if p t.lexeme then ((d.skipWhile p).1.or (some t), (d.skipWhile p).2) else (none, c) := by
  unfold next? at h
  split at h
  next => cases h
  next x n hs =>
    cases h
    have rest_eq : rest ⟨c.source, c.pos + n⟩ = c.rest.drop n := by
      rw [rest, rest, List.drop_drop]
    rw [skipWhile, skipFrom_of_some hs, skipWhile, rest_eq]
    by_cases hp : p x = true
    · simp only [hp, ↓reduceIte]
    · simp only [hp, Bool.false_eq_true, ↓reduceIte]

/-- Passes over one token if it satisfies `p`. -/
def skipOnce (p : Lexeme → Bool) (c : Cursor) : Option Token × Cursor :=
  match c.next? with
  | none => (none, c)
  | some (t, d) => if p t.lexeme then (some t, d) else (none, c)

def skipSpaces : Cursor → Option Token × Cursor :=
  skipWhile Lexeme.isSpace

/-- Passes over one semicolon. -/
def skipSemicolon : Cursor → Option Token × Cursor :=
  skipOnce Lexeme.isSemicolon

/-- The position where the last token ends: nothing can be read from there. -/
def limit (c : Cursor) : Nat :=
  match c.tokens.getLast? with
  | none => c.pos
  | some t => t.last + 1

/-- The cursor before the tokens `left`, which are the last ones of `c`. -/
def before (c : Cursor) (left : List Token) : Cursor :=
  match left.head? with
  | none => ⟨c.source, c.limit⟩
  | some t => ⟨c.source, t.first⟩

theorem before_tokens (c : Cursor) : c.before c.tokens = c := by
  cases hn : c.next? with
  | none =>
    rw [before, limit, tokens_of_next?_none hn]
    rfl
  | some next =>
    obtain ⟨t, d⟩ := next
    have first_eq : t.first = c.pos := by
      unfold next? at hn
      split at hn
      next => cases hn
      next => cases hn; rfl
    rw [before, tokens_of_next?_some hn, List.head?_cons]
    simp only [first_eq]

end Cursor

end LetLang
