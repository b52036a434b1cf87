import LetLang.Json

/-!
# Encoders of JSON

How a document becomes text is not part of the language: whoever encodes a tree brings an encoder, which
gives the text of a document in one line or indented, or says why there is none.

An encoder is described by what it does mark by mark. The marks of a document are its pieces in the order
of its text, without the separators between them; a writer appends something for each mark, or it
refuses the mark, and then nothing behind it is written.
-/
namespace LetLang.Json

/-! ## Marks -/

/-- A piece of a document. Arrays and objects are opened and closed. -/
inductive Mark where
  | null
  | bool (b : Bool)
  | num (n : Int)
  | str (s : Text)
  | name (key : String)
  | opening (isObject : Bool)
  | closing (isObject : Bool)
deriving DecidableEq

mutual

/-- The marks of a document, in the order of its text. -/
def marks : Json → List Mark
  | .null => [.null]
  | .bool b => [.bool b]
  | .num n => [.num n]
  | .str s => [.str s]
  | .arr items => .opening false :: (itemMarks items ++ [.closing false])
  | .obj members => .opening true :: (memberMarks members ++ [.closing true])

def itemMarks : List Json → List Mark
  | [] => []
  | j :: js => j.marks ++ itemMarks js

def memberMarks : List (String × Json) → List Mark
  | [] => []
  | (key, j) :: ms => .name key :: (j.marks ++ memberMarks ms)

end

/-- How many arrays and objects are open behind a mark, if there are `depth` before it. -/
def Mark.depthBehind (depth : Nat) : Mark → Nat
  | .opening _ => depth + 1
  | .closing _ => depth - 1
  | _ => depth

/-- How many arrays and objects are open behind some marks. -/
def opened (done : List Mark) : Nat :=
  done.foldl Mark.depthBehind 0

/-- Where a mark stands: at the start, first in an array or object, behind a name, or behind a value. -/
inductive Place where
  | start
  | first
  | named
  | behind
deriving DecidableEq

def Mark.placeBehind : Mark → Place
  | .opening _ => .first
  | .name _ => .named
  | _ => .behind

/-- The place behind some marks. -/
def placeAfter (done : List Mark) : Place :=
  done.foldl (fun _ m => m.placeBehind) .start

@[simp] theorem opened_concat (done : List Mark) (m : Mark) :
    opened (done ++ [m]) = m.depthBehind (opened done) := by
  simp [opened]

@[simp] theorem placeAfter_concat (done : List Mark) (m : Mark) :
    placeAfter (done ++ [m]) = m.placeBehind := by
  simp [placeAfter]

/-- What separates a mark from the one before it. -/
def separator : Place → Mark → List Char
  | .named, _ => [':']
  | .behind, .closing _ => []
  | .behind, _ => [',']
  | .start, _ | .first, _ => []

/-! ## Encoders -/

/-- In one line, or indented. -/
inductive Mode where
  | compact
  | indented
deriving DecidableEq

/-- The text of a document, or the reason why there is none. -/
abbrev Encoder := Mode → Json → Except String (List Char)

/-- What is appended for a mark behind the marks `done`, or the reason why it is refused. -/
abbrev Writer := Mode → (done : List Mark) → Mark → Except String (List Char)

/-- Writes marks one after another behind the marks `done`, up to the first that is refused. -/
def Writer.run (write : Writer) (mode : Mode) (done : List Mark) :
    List Mark → Except String (List Char)
  | [] => .ok []
  | m :: ms =>
    match write mode done m with
    | .error reason => .error reason
    | .ok text => (write.run mode (done ++ [m]) ms).map (text ++ ·)

section Run

variable {write : Writer} {mode : Mode} {done : List Mark} {m : Mark} (ms : List Mark)

theorem Writer.run_of_error {reason : String} (h : write mode done m = .error reason) :
    write.run mode done (m :: ms) = .error reason := by
  rw [run, h]

theorem Writer.run_of_ok {text : List Char} (h : write mode done m = .ok text) :
    write.run mode done (m :: ms) = (write.run mode (done ++ [m]) ms).map (text ++ ·) := by
  rw [run, h]

/-- If marks are written, then so are the first and the others. -/
theorem Writer.exists_of_run_cons {ms : List Mark} {text : List Char}
    (h : write.run mode done (m :: ms) = .ok text) :
    ∃ first rest, write mode done m = .ok first ∧ write.run mode (done ++ [m]) ms = .ok rest ∧
      text = first ++ rest := by
  cases hfirst : write mode done m with
  | error reason =>
    rw [run_of_error ms hfirst] at h
    cases h
  | ok first =>
    rw [run_of_ok ms hfirst] at h
    cases hrest : write.run mode (done ++ [m]) ms with
    | error reason =>
      rw [hrest] at h
      cases h
    | ok rest =>
      rw [hrest] at h
      cases h
      exact ⟨first, rest, rfl, rfl, rfl⟩

end Run

/-- Why a mark inside `depth` arrays and objects cannot be written, if it cannot: no more than ten
thousand may be open at once, and a text with stray bytes is no JSON string. -/
def Mark.refusal? (depth : Nat) : Mark → Option String
  | .opening _ => if depth < 10000 then none else some "jsontext: exceeded max depth"
  | .str s => if s.chars?.isSome then none else some "jsontext: invalid UTF-8 within string"
  | _ => none

/-- What is said of a document that could not be encoded. -/
def failure (reason : String) : String :=
  "could not marshal json: " ++ reason

end LetLang.Json
