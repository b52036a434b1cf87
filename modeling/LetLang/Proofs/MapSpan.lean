import LetLang.Tree

/-!
# Trees with other spans

`mapSpan` changes every span of a tree, those of names and fields included, and nothing else. Erasing
the spans puts all parts of a tree at the same place, so that two trees are equal after it exactly if
they differ in their spans only.
-/
namespace LetLang

def Ident.mapSpan (f : Span → Span) (i : Ident) : Ident :=
  ⟨i.name, f i.span⟩

mutual

/-- An expression with the function applied to all its spans. -/
def Expr.mapSpan (f : Span → Span) : Expr → Expr
  | .absent => .absent
  | .ident i => .ident (i.mapSpan f)
  | .number n s => .number n (f s)
  | .bool b s => .bool b (f s)
  | .string value quote s => .string value quote (f s)
  | .call called input s => .call (called.mapSpan f) (input.mapSpan f) (f s)
  | .access target field s => .access (target.mapSpan f) (field.map (Ident.mapSpan f)) (f s)
  | .block ss s => .block (Stmt.mapSpanAll f ss) (f s)

/-- A statement with the function applied to all its spans. -/
def Stmt.mapSpan (f : Span → Span) : Stmt → Stmt
  | .absent => .absent
  | .binding name value s => .binding (name.map (Ident.mapSpan f)) (value.mapSpan f) (f s)
  | .stated value s => .stated (value.mapSpan f) (f s)

def Stmt.mapSpanAll (f : Span → Span) : List Stmt → List Stmt
  | [] => []
  | s :: ss => s.mapSpan f :: Stmt.mapSpanAll f ss

end

def Program.mapSpan (f : Span → Span) (p : Program) : Program :=
  ⟨Stmt.mapSpanAll f p.stmts⟩

/-! ## One change after another -/

theorem Ident.map_mapSpan (f g : Span → Span) (name : Option Ident) :
    (name.map (Ident.mapSpan f)).map (Ident.mapSpan g) = name.map (Ident.mapSpan (g ∘ f)) := by
  cases name <;> rfl

mutual

theorem Expr.mapSpan_mapSpan (f g : Span → Span) (e : Expr) :
    (e.mapSpan f).mapSpan g = e.mapSpan (g ∘ f) := by
  cases e with
  | absent | ident | number | bool | string => rfl
  | call called input span =>
    simp only [Expr.mapSpan, called.mapSpan_mapSpan f g, input.mapSpan_mapSpan f g, Function.comp_apply]
  | access target field span =>
    simp only [Expr.mapSpan, target.mapSpan_mapSpan f g, Ident.map_mapSpan, Function.comp_apply]
  | block ss span =>
    simp only [Expr.mapSpan, Stmt.mapSpanAll_mapSpanAll f g ss, Function.comp_apply]

theorem Stmt.mapSpan_mapSpan (f g : Span → Span) (s : Stmt) :
    (s.mapSpan f).mapSpan g = s.mapSpan (g ∘ f) := by
  cases s with
  | absent => rfl
  | binding name value span =>
    simp only [Stmt.mapSpan, value.mapSpan_mapSpan f g, Ident.map_mapSpan, Function.comp_apply]
  | stated value span =>
    simp only [Stmt.mapSpan, value.mapSpan_mapSpan f g, Function.comp_apply]

theorem Stmt.mapSpanAll_mapSpanAll (f g : Span → Span) (ss : List Stmt) :
    Stmt.mapSpanAll g (Stmt.mapSpanAll f ss) = Stmt.mapSpanAll (g ∘ f) ss := by
  cases ss with
  | nil => rfl
  | cons s ss =>
    simp only [Stmt.mapSpanAll, s.mapSpan_mapSpan f g, Stmt.mapSpanAll_mapSpanAll f g ss]

end

/-! ## Erasing -/

def Expr.eraseSpans : Expr → Expr :=
  Expr.mapSpan fun _ => ⟨0, 0⟩

def Stmt.eraseSpans : Stmt → Stmt :=
  Stmt.mapSpan fun _ => ⟨0, 0⟩

def Stmt.eraseSpansAll : List Stmt → List Stmt :=
  Stmt.mapSpanAll fun _ => ⟨0, 0⟩

def Program.eraseSpans : Program → Program :=
  Program.mapSpan fun _ => ⟨0, 0⟩

end LetLang
