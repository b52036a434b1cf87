import LetLang.Span

/-!
# Syntax trees

A program is a list of statements, and a statement binds or states an expression. Trees can be built
by hand with parts left out: an expression or statement may be absent, and so may the name of a
binding or the field of an access. The parser leaves nothing out.

A place for an expression or a statement is empty or holds a node; it never holds a reference that
leads nowhere. Only the name of a binding and the field of an access can be such references, and then
they are missing.
-/
namespace LetLang

structure Ident where
  name : Text
  span : Span
deriving DecidableEq

mutual

inductive Expr where
  | absent
  | ident (i : Ident)
  | number (value : UInt32) (span : Span)
  | bool (value : Bool) (span : Span)
  | string (value : Text) (quote : Option SourceChar) (span : Span)
  | call (called input : Expr) (span : Span)
  | access (target : Expr) (field : Option Ident) (span : Span)
  | block (stmts : List Stmt) (span : Span)

inductive Stmt where
  | absent
  | binding (name : Option Ident) (value : Expr) (span : Span)
  | stated (value : Expr) (span : Span)

end

instance : Inhabited Expr := ⟨.absent⟩

instance : Inhabited Stmt := ⟨.absent⟩

structure Program where
  stmts : List Stmt

namespace Expr

/-- Where an expression stands; an absent one is put at the very start. -/
def span : Expr → Span
  | .absent => ⟨0, 0⟩
  | .ident i => i.span
  | .number _ s | .bool _ s | .string _ _ s | .call _ _ s | .access _ _ s | .block _ s => s

def isAbsent : Expr → Bool
  | .absent => true
  | _ => false

end Expr

namespace Stmt

/-- Where a statement stands; an absent one is put at the very start. -/
def span : Stmt → Span
  | .absent => ⟨0, 0⟩
  | .binding _ _ s | .stated _ s => s

def isAbsent : Stmt → Bool
  | .absent => true
  | _ => false

end Stmt

namespace Program

/-- From the first statement to the last. There is none if one of the two is absent. -/
def span? (p : Program) : Option Span :=
  match p.stmts.head?, p.stmts.getLast? with
  | some first, some last =>
    if first.isAbsent || last.isAbsent then none else some ⟨first.span.start, last.span.stop⟩
  | _, _ => some ⟨0, 0⟩

end Program

/-- A part of a tree. A foreign node is outside the language and brings its own label and text. -/
inductive Node where
  | program (p : Program)
  | stmt (s : Stmt)
  | expr (e : Expr)
  | missingName
  | foreign (label text : Text) (span : Span)

namespace Node

inductive Kind where
  | program
  | binding
  | stated
  | ident
  | call
  | access
  | block
  | number
  | bool
  | string
  | foreign
deriving DecidableEq

def kind? : Node → Option Kind
  | .program _ => some .program
  | .stmt .absent | .expr .absent => none
  | .stmt (.binding _ _ _) => some .binding
  | .stmt (.stated _ _) => some .stated
  | .expr (.ident _) | .missingName => some .ident
  | .expr (.number _ _) => some .number
  | .expr (.bool _ _) => some .bool
  | .expr (.string _ _ _) => some .string
  | .expr (.call _ _ _) => some .call
  | .expr (.access _ _ _) => some .access
  | .expr (.block _ _) => some .block
  | .foreign _ _ _ => some .foreign

/-- Where a node stands, unless it is missing or is a program with a missing end. -/
def span? : Node → Option Span
  | .program p => p.span?
  | .stmt s => if s.isAbsent then none else some s.span
  | .expr e => if e.isAbsent then none else some e.span
  | .missingName => none
  | .foreign _ _ s => some s

end Node

end LetLang
