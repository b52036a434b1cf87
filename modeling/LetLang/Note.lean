import LetLang.Decimal

/-!
# Notes of a parse

The parser notes each attempt that it gives up after a telling start, and at the end of a program
how far it came. A note names the offset where the attempt began. A log keeps notes in the order
they were made, and two logs are joined in constant time.
-/
namespace LetLang

inductive Note where
  | expectedName (letAt : Nat)
  | expectedEqual (letAt found : Nat)
  | noValue (letAt : Nat)
  | bareCallee (openAt : Nat)
  | overflow (numberAt : Nat)
  | unclosed (blockAt : Nat)
  | stopped (count offset : Nat)
deriving DecidableEq

def Note.message : Note → String
  | .expectedName n => "let at " ++ Decimal.string n ++ ": expected identifier"
  | .expectedEqual n m => "let at " ++ Decimal.string n ++ ": expected '=' at " ++ Decimal.string m
  | .noValue n => "let at " ++ Decimal.string n ++ ": no value expression"
  | .bareCallee n => "call at " ++ Decimal.string n ++ ": falling back to bare callee"
  | .overflow n => "number at " ++ Decimal.string n ++ ": overflows uint32"
  | .unclosed n => "block at " ++ Decimal.string n ++ ": unclosed"
  | .stopped n m =>
    "parsed " ++ Decimal.string n ++ " statements, stopped at offset " ++ Decimal.string m

inductive Log where
  | empty
  | note (n : Note)
  | join (earlier later : Log)

namespace Log

def append : Log → Log → Log
  | .empty, later => later
  | earlier, .empty => earlier
  | earlier, later => .join earlier later

instance : Append Log := ⟨append⟩

/-- The notes of a log, followed by `tail`. -/
def listOnto : Log → List Note → List Note
  | .empty, tail => tail
  | .note n, tail => n :: tail
  | .join earlier later, tail => earlier.listOnto (later.listOnto tail)

def toList (l : Log) : List Note :=
  l.listOnto []

theorem listOnto_eq (l : Log) (tail : List Note) : l.listOnto tail = l.toList ++ tail := by
  induction l generalizing tail with
  | empty => rfl
  | note n => rfl
  | join a b iha ihb =>
    change a.listOnto (b.listOnto tail) = a.listOnto (b.listOnto []) ++ tail
    rw [ihb tail, iha, iha (b.listOnto []), ihb []]
    simp

@[simp] theorem toList_empty : Log.empty.toList = [] := rfl

@[simp] theorem toList_note (n : Note) : (Log.note n).toList = [n] := rfl

@[simp] theorem toList_join (a b : Log) : (Log.join a b).toList = a.toList ++ b.toList :=
  listOnto_eq a b.toList

@[simp] theorem toList_append (a b : Log) : (a ++ b).toList = a.toList ++ b.toList := by
  change (append a b).toList = _
  unfold append
  split <;> simp

end Log

end LetLang
