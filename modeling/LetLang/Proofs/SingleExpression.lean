import LetLang.Proofs.Extent
import LetLang.Proofs.Split

/-!
# One expression or a program

A source can be read as one expression or as a program. Both begin with the same expression, since what
begins an expression does not begin a binding, and the source is one expression without an error exactly
if it is a program of that expression alone, with no semicolon behind it. Where more follows, the
expression can be cut off at the offset of the error.
-/
namespace LetLang

open Grammar
open Parse (Options)

namespace Grammar

variable {o : Options} {x : Expr} {ts us left rest : List Token}

/-- A statement that stops where its expression does has no semicolon: that would stand further on. -/
theorem Ending.eq_of_stop {stop stop' : Int} (ending : Ending stop ts stop' rest) {lo hi : Nat}
    (tiles : Tiles lo ts hi) (hlo : stop + 1 = lo) (hstop : stop' = stop) : ts = rest := by
  cases ending with
  | none => rfl
  | semicolon ws =>
    obtain ⟨hfirst, hlast, -⟩ := ws.tiles_token tiles
    omega

/-- A program that states one expression without a semicolon is that expression. -/
theorem isProgram_stated_iff {lo hi : Nat} (tiles : Tiles lo ts hi) :
    IsProgram o ⟨[.stated x x.span]⟩ ts ↔ IsExpression o x ts := by
  constructor
  · rintro ⟨left, derived, ws⟩
    cases derived with
    | moreStmts ws' head tail =>
      cases tail
      cases head with
      | letStmt h => cases h
      | exprStmt h =>
        obtain ⟨mid, -, htiles⟩ := ws'.tiles tiles
        -- the statement has the span of its expression, which leaves no place for a semicolon
        generalize hs : Stmt.stated x x.span = s at h
        cases h with
        | stated said ending =>
          simp only [Stmt.stated.injEq] at hs
          obtain ⟨rfl, hspan⟩ := hs
          obtain ⟨stop, htiles', -, -, hstop⟩ := said.covers htiles
          obtain rfl := ending.eq_of_stop htiles' hstop (congrArg Span.stop hspan).symm
          exact ⟨_, _, ws', said, ws⟩
  · rintro ⟨us, left, ws, derived, ws'⟩
    exact ⟨left, .moreStmts ws (.exprStmt (.stated derived (.none left))) (.noStmt left), ws'⟩

/-- Without what is left behind it, an expression is all there is. -/
theorem isExpression_of_derives (ws : Spaces ts us) (derived : Derives o (.expr x) us left)
    (ws' : Spaces left rest) : ∃ p, ts = p ++ rest ∧ IsExpression o x p := by
  obtain ⟨c, rfl, hc⟩ := ws'.context
  obtain ⟨b, rfl, hb⟩ := derived.context
  obtain ⟨a, rfl, ha⟩ := ws.context
  have hspaces := hc []
  rw [List.append_nil] at hspaces
  refine ⟨a ++ (b ++ c), by simp, b ++ c, c, ha _, hb c (noNewDigit_append_left c rest), hspaces⟩

end Grammar

/-! ## Reading one expression -/

/-- A source is one expression exactly if it is a program that states this expression alone, without a
semicolon. -/
theorem parseExpression_complete_iff_parse {o : Options} {source : Source} {x : Expr} :
    ((parseExpression o source).tree = some x ∧ (parseExpression o source).error? = none) ↔
      (parse o source).tree = ⟨[.stated x x.span]⟩ ∧ (parse o source).error? = none := by
  rw [parseExpression_complete_iff, parse_complete_iff]
  refine exists_congr fun ts => and_congr_right fun reads => ?_
  exact (isProgram_stated_iff reads.run.tiles).symm

/-- The error behind an expression is at a place up to which the source is the expression alone. -/
theorem parseExpression_error_cuts {o : Options} {source : Source} {x : Expr} {e : ParseError}
    (htree : (parseExpression o source).tree = some x)
    (herror : (parseExpression o source).error? = some e) :
    ∃ k : Nat, e = .expression ⟨k, 0⟩ ∧ k < source.length ∧
      (parseExpression o (source.take k)).tree = some x ∧
      (parseExpression o (source.take k)).error? = none := by
  obtain ⟨left, hm⟩ := matched_of_tree htree
  have ws := Parse.spaces_skipSpaces (Cursor.start source).tokens
  have ws' := Parse.spaces_skipSpaces left
  obtain ⟨p, hp, expression⟩ := isExpression_of_derives ws (Parse.derives_expr hm) ws'
  obtain ⟨run, -⟩ := Cursor.run_before hp
  rw [(parseExpression_eq_of_matched hm).2] at herror
  split at herror
  next => cases herror
  next hend =>
    cases herror
    have hpos := (not_congr Cursor.atEnd_iff).mp hend
    rw [run.source] at hpos
    change ¬ source.length ≤ _ at hpos
    have hcut := parseExpression_complete_iff.mpr ⟨p, readsAll_take run, expression⟩
    exact ⟨_, rfl, by omega, hcut.1, hcut.2⟩

/-! ## The first statement -/

/-- Where an expression is matched, the statement that is read states it. -/
theorem matched_stmt_of_matched_expr {o : Options} {x : Expr} {ts left : List Token}
    (h : (Parse.expr o ts).matched = some (x, left)) :
    ∃ span rest, (Parse.stmt o ts).matched = some (.stated x span, rest) := by
  have derived : Derives o (.exprStmt (.stated x ⟨x.span.start, x.span.stop⟩)) ts left :=
    .stated (Parse.derives_expr h) (.none left)
  rw [Parse.matched_stmt_of_exprStmt derived, Parse.matched_exprStmt, h]
  exact ⟨_, _, rfl⟩

/-- Where no expression is matched, a statement that is read is a binding. -/
theorem binding_of_unmatched_expr {o : Options} {s : Stmt} {ts rest : List Token}
    (h : (Parse.expr o ts).matched = none) (hs : (Parse.stmt o ts).matched = some (s, rest)) :
    ∃ name value span, s = .binding name value span := by
  have hnone : (Parse.exprStmt o ts).matched = none := by
    rw [Parse.matched_exprStmt, h]
  rw [Parse.matched_stmt, hnone, Option.or_none] at hs
  cases (Parse.soundBelow o ts.length).letStmt hs with
  | binding => exact ⟨_, _, _, rfl⟩

theorem head?_stmts_parse {o : Options} {source : Source} :
    (parse o source).tree.stmts.head? =
      (Parse.stmt o (Parse.skipSpaces (Cursor.start source).tokens)).matched.map Prod.fst := by
  change (Parse.stmts o (Cursor.start source).tokens).results.head? = _
  cases hm : (Parse.stmt o (Parse.skipSpaces (Cursor.start source).tokens)).matched with
  | none =>
    rw [(Parse.stmts_of_unmatched hm).1]
    rfl
  | some m =>
    rw [(Parse.stmts_of_matched hm).1]
    rfl

/-- The source of one expression is a program that begins with it; any other begins with a binding or
with no statement. -/
theorem first_stmt_of_parseExpression (o : Options) (source : Source) :
    (∀ x, (parseExpression o source).tree = some x →
      ∃ span, (parse o source).tree.stmts.head? = some (.stated x span)) ∧
    ((parseExpression o source).tree = none → ∀ s, (parse o source).tree.stmts.head? = some s →
      ∃ name value span, s = .binding name value span) := by
  rw [head?_stmts_parse]
  constructor
  · intro x htree
    obtain ⟨left, hm⟩ := matched_of_tree htree
    obtain ⟨span, rest, hs⟩ := matched_stmt_of_matched_expr hm
    exact ⟨span, by rw [hs]; rfl⟩
  · intro htree s hs
    rw [parseExpression_tree_eq] at htree
    obtain ⟨⟨s', rest⟩, hm, rfl⟩ := Option.map_eq_some_iff.mp hs
    exact binding_of_unmatched_expr (Option.map_eq_none_iff.mp htree) hm

/-- A source read as one expression and as a program. It is one expression without an error exactly if it
is the program of that expression without a semicolon. An expression that is read beside an error is that
of the first statement, and the source up to the error is the expression alone; if no expression is read,
the first statement, if there is one, is a binding. -/
theorem parseExpression_agrees_with_parse (o : Options) (source : Source) :
    (∀ x, ((parseExpression o source).tree = some x ∧ (parseExpression o source).error? = none) ↔
      (parse o source).tree = ⟨[.stated x x.span]⟩ ∧ (parse o source).error? = none) ∧
    (∀ x, (parseExpression o source).tree = some x →
      ∃ span, (parse o source).tree.stmts.head? = some (.stated x span)) ∧
    ((parseExpression o source).tree = none → ∀ s, (parse o source).tree.stmts.head? = some s →
      ∃ name value span, s = .binding name value span) ∧
    ∀ x e, (parseExpression o source).tree = some x → (parseExpression o source).error? = some e →
      ∃ k : Nat, e = .expression ⟨k, 0⟩ ∧ k < source.length ∧
        (parseExpression o (source.take k)).tree = some x ∧
        (parseExpression o (source.take k)).error? = none := by
  obtain ⟨states, binds⟩ := first_stmt_of_parseExpression o source
  exact ⟨fun x => parseExpression_complete_iff_parse, states, binds,
    fun x e htree herror => parseExpression_error_cuts htree herror⟩

end LetLang
