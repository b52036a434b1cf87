import LetLang.Proofs.Extent
import LetLang.Proofs.RoundTrip

/-!
# The trees that can be parsed

The trees of programs that are parsed without an error are the well-formed ones, whatever spans they
have: nothing else is ever parsed, and a well-formed program can be written down and parsed again.
Every tree read on the way is well-formed too, at any cursor and also where an error follows.

There is one exception. The option that switches blocks off is asked where a block could be an
expression, and not by the production of blocks itself. Read with that production, a block is given
whether blocks are switched off or not, and only its statements keep to the options.
-/
namespace LetLang

open Parse (Options)

def Node.WellFormed (o : Options) : Node → Prop
  | .program p => Stmt.AllWellFormed o p.stmts
  | .stmt s => s.WellFormed o
  | .expr e => e.WellFormed o
  | .missingName | .foreign _ _ _ => False

/-! ## Spans do not matter -/

theorem Ident.wellFormed_map (f : Span → Span) (name : Option Ident) :
    (∃ i, name.map (Ident.mapSpan f) = some i ∧ i.WellFormed) ↔
      ∃ i, name = some i ∧ i.WellFormed := by
  cases name with
  | none => simp
  | some i => simp [Ident.mapSpan, Ident.WellFormed]

theorem Expr.isCall_mapSpan (f : Span → Span) (e : Expr) : (e.mapSpan f).isCall = e.isCall := by
  cases e <;> rfl

mutual

theorem Expr.wellFormed_mapSpan (o : Options) (f : Span → Span) (e : Expr) :
    (e.mapSpan f).WellFormed o ↔ e.WellFormed o := by
  cases e with
  | absent | ident | number | bool | string => exact Iff.rfl
  | call called input span =>
    simp only [Expr.mapSpan, Expr.WellFormed, called.isCall_mapSpan,
      called.wellFormed_mapSpan o f, input.wellFormed_mapSpan o f]
  | access target field span =>
    simp only [Expr.mapSpan, Expr.WellFormed, target.isCall_mapSpan,
      target.wellFormed_mapSpan o f, Ident.wellFormed_map]
  | block ss span =>
    simp only [Expr.mapSpan, Expr.WellFormed, Stmt.allWellFormed_mapSpanAll o f ss]

theorem Stmt.wellFormed_mapSpan (o : Options) (f : Span → Span) (s : Stmt) :
    (s.mapSpan f).WellFormed o ↔ s.WellFormed o := by
  cases s with
  | absent => exact Iff.rfl
  | binding name value span =>
    simp only [Stmt.mapSpan, Stmt.WellFormed, value.wellFormed_mapSpan o f, Ident.wellFormed_map]
  | stated value span => exact value.wellFormed_mapSpan o f

theorem Stmt.allWellFormed_mapSpanAll (o : Options) (f : Span → Span) (ss : List Stmt) :
    Stmt.AllWellFormed o (Stmt.mapSpanAll f ss) ↔ Stmt.AllWellFormed o ss := by
  cases ss with
  | nil => exact Iff.rfl
  | cons s ss =>
    simp only [Stmt.mapSpanAll, Stmt.AllWellFormed, s.wellFormed_mapSpan o f,
      Stmt.allWellFormed_mapSpanAll o f ss]

end

/-- A program is as well-formed as any that differs from it in its spans only. -/
theorem wellFormed_of_eraseSpans_eq {o : Options} {p p' : Program}
    (same : p.eraseSpans = p'.eraseSpans) (h : (Node.program p).WellFormed o) :
    (Node.program p').WellFormed o := by
  have herased := (Stmt.allWellFormed_mapSpanAll o (fun _ => ⟨0, 0⟩) p.stmts).mpr h
  have hstmts : Stmt.mapSpanAll (fun _ => ⟨0, 0⟩) p.stmts =
      Stmt.mapSpanAll (fun _ => ⟨0, 0⟩) p'.stmts := congrArg Program.stmts same
  rw [hstmts] at herased
  exact (Stmt.allWellFormed_mapSpanAll o (fun _ => ⟨0, 0⟩) p'.stmts).mp herased

/-! ## What is read at a cursor -/

theorem wellFormed_readProgram (o : Options) (c : Cursor) :
    (Node.program (Parse.readProgram o c).result).WellFormed o :=
  (Parse.derives_stmts o c.tokens).wellFormed c.spellable_tokens

/-- A block that the production of blocks gives where blocks are switched off. -/
def BlockWhileOff (o : Options) (p : Parse.Production) (n : Node) : Prop :=
  p = .block ∧ o.blocks = false ∧ ∃ ss span, n = .expr (.block ss span) ∧ Stmt.AllWellFormed o ss

theorem wellFormed_of_outcome {o : Options} {p : Parse.Production} {ts left : List Token} {n : Node}
    (h : (p.outcome o ts).result = some (n, left)) (spellable : ∀ t ∈ ts, t.lexeme.Spellable) :
    n.WellFormed o ∨ BlockWhileOff o p n := by
  obtain ⟨φ, derived, hn, hblock⟩ := Parse.Production.derives_own h
  have hφ := derived.wellFormed spellable
  cases φ with
  | stmts => cases hn
  | stmt | letStmt | exprStmt | expr =>
    cases hn
    exact .inl hφ
  | access | primary | number =>
    cases hn
    exact .inl hφ.2
  | block e =>
    cases hn
    obtain ⟨ss, span, rfl, hss⟩ := hφ
    by_cases on : o.blocks = true
    · exact .inl ⟨on, hss⟩
    · exact .inr ⟨hblock _ rfl, by simpa using on, ss, span, rfl, hss⟩

theorem wellFormed_read {o : Options} {p : Parse.Production} {c : Cursor} {n : Node}
    (h : (p.read o c).result = some n) : n.WellFormed o ∨ BlockWhileOff o p n := by
  cases hr : (p.outcome o c.tokens).result with
  | none =>
    have hnone := readAt_of_none hr
    change (p.read o c).result = none at hnone
    rw [hnone] at h
    cases h
  | some m =>
    obtain ⟨n', left⟩ := m
    have hsome := (readAt_of_some hr).1
    change (p.read o c).result = some n' at hsome
    rw [hsome] at h
    cases h
    exact wellFormed_of_outcome hr c.spellable_tokens

/-- The programs that some text is parsed as without an error are, up to spans, the well-formed ones,
and every tree that is read is well-formed, apart from a block that its own production reads where
blocks are switched off. -/
theorem parsed_trees_are_wellFormed (o : Options) :
    (∀ p : Program, (∃ text : Text, (parse o text.toSource).error? = none ∧
        (parse o text.toSource).tree.eraseSpans = p.eraseSpans) ↔ (Node.program p).WellFormed o) ∧
    (∀ source, (Node.program (parse o source).tree).WellFormed o) ∧
    (∀ source x, (parseExpression o source).tree = some x → (Node.expr x).WellFormed o) ∧
    ∀ c : Cursor, (Node.program (Parse.readProgram o c).result).WellFormed o ∧
      ∀ (p : Parse.Production) (n : Node), (p.read o c).result = some n →
        n.WellFormed o ∨ BlockWhileOff o p n := by
  refine ⟨fun p => ⟨?_, fun h => ?_⟩, wellFormed_parse o, fun _ _ => wellFormed_parseExpression,
    fun c => ⟨wellFormed_readProgram o c, fun _ _ => wellFormed_read⟩⟩
  · rintro ⟨text, -, same⟩
    exact wellFormed_of_eraseSpans_eq same (wellFormed_parse o text.toSource)
  · obtain ⟨text, -, herror, same⟩ := parse_text_of_wellFormed h .multiLine []
    exact ⟨text, herror, same⟩

/-- Where blocks are switched off, the production of blocks reads one. -/
theorem block_read_where_blocks_are_off :
    (Parse.Production.block.read ⟨false, true⟩ (.start [.char '\x7b', .char '\x7d'])).result =
        some (.expr (.block [] ⟨0, 1⟩)) ∧
      ¬ (Node.expr (.block [] ⟨0, 1⟩)).WellFormed ⟨false, true⟩ := by
  constructor
  · with_unfolding_all rfl
  · rintro ⟨on, -⟩
    cases on

end LetLang
