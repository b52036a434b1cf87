import LetLang.Tree

/-!
# Walking a tree

A walk lists the nodes of a tree, each before its children and the children in source order. Where
`descend` says no, the children of a node are left out. Absent expressions and statements are passed
over; the missing name of a binding or field of an access is listed as such.
-/
namespace LetLang

/-- The node of a name that may be missing. -/
def Ident.node : Option Ident → Node
  | none => .missingName
  | some i => .expr (.ident i)

mutual

/-- The nodes of an expression, followed by `tail`. -/
def Expr.walk (descend : Node → Bool) : Expr → List Node → List Node
  | .absent, tail => tail
  | .call called input span, tail =>
    .expr (.call called input span) ::
      if descend (.expr (.call called input span)) then
        called.walk descend (input.walk descend tail)
      else tail
  | .access target field span, tail =>
    .expr (.access target field span) ::
      if descend (.expr (.access target field span)) then
        target.walk descend (Ident.node field :: tail)
      else tail
  | .block stmts span, tail =>
    .expr (.block stmts span) ::
      if descend (.expr (.block stmts span)) then Stmt.walkAll descend stmts tail else tail
  | e, tail => .expr e :: tail

/-- The nodes of a statement, followed by `tail`. -/
def Stmt.walk (descend : Node → Bool) : Stmt → List Node → List Node
  | .absent, tail => tail
  | .binding name value span, tail =>
    .stmt (.binding name value span) ::
      if descend (.stmt (.binding name value span)) then
        Ident.node name :: value.walk descend tail
      else tail
  | .stated value span, tail =>
    .stmt (.stated value span) ::
      if descend (.stmt (.stated value span)) then value.walk descend tail else tail

/-- The nodes of a list of statements, followed by `tail`. -/
def Stmt.walkAll (descend : Node → Bool) : List Stmt → List Node → List Node
  | [], tail => tail
  | s :: ss, tail => s.walk descend (Stmt.walkAll descend ss tail)

end

/-- The nodes of a tree in the order of a walk. -/
def Node.walk (descend : Node → Bool) : Node → List Node
  | .program p =>
    .program p :: if descend (.program p) then Stmt.walkAll descend p.stmts [] else []
  | .stmt s => s.walk descend []
  | .expr e => e.walk descend []
  | n => [n]

/-- A node as a walk shows it. -/
structure Visit where
  kind : Node.Kind
  span : Span

/-- What a walk shows of a node; nothing can be shown of a node without a place. -/
def Node.visit? (n : Node) : Option Visit :=
  match n.kind?, n.span? with
  | some kind, some span => some ⟨kind, span⟩
  | _, _ => none

/-- What a walk shows that leaves out the children of the kinds in `pruned`. -/
def Node.visits? (pruned : List Node.Kind) (root : Node) : Option (List Visit) :=
  (root.walk fun n => decide (∀ k ∈ n.kind?, k ∉ pruned)).mapM Node.visit?

end LetLang
