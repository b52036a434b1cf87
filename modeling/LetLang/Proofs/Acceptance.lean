import LetLang.Parse
import LetLang.Proofs.Skipping
import LetLang.Proofs.Completeness

/-!
# The programs that are accepted

A source is parsed without an error exactly if it can be read as tokens up to its end and these tokens
are a program of the grammar. The grammar gives them one tree, and the parser returns it.
-/
namespace LetLang

open Grammar

/-- The tokens from where the reading of a program stops are the last ones of the source. -/
theorem suffix_after_stmts (o : Parse.Options) (ts : List Token) :
    Parse.skipSpaces (Parse.stmts o ts).left.val <:+ ts :=
  (Parse.spaces_skipSpaces _).suffix.trans (Parse.derives_stmts o ts).suffix

theorem parse_error_eq (o : Parse.Options) (source : Source) :
    (parse o source).error? =
      if (Parse.readProgram o (Cursor.start source)).cursor.atEnd then none
      else some (.program ⟨(Parse.readProgram o (Cursor.start source)).cursor.pos,
        (parse o source).tree.stmts.length⟩) :=
  rfl

/-- Every error of a program counts the statements of the tree. -/
theorem exists_error_of_incomplete {o : Parse.Options} {source : Source}
    (h : (parse o source).error? ≠ none) :
    ∃ k : Int, (parse o source).error? = some (.program ⟨k, (parse o source).tree.stmts.length⟩) := by
  rw [parse_error_eq] at h ⊢
  split at h
  next => exact absurd rfl h
  next hopen => exact ⟨_, if_neg hopen⟩

/-- There is no error if all tokens are used up and they reach the end of the source. -/
theorem parse_error_none_iff (o : Parse.Options) (source : Source) :
    (parse o source).error? = none ↔
      ReadsAll source (Cursor.start source).tokens ∧
        Parse.skipSpaces (Parse.stmts o (Cursor.start source).tokens).left.val = [] := by
  obtain ⟨ts, hts⟩ := suffix_after_stmts o (Cursor.start source).tokens
  rw [← atEnd_before_iff hts.symm, parse_error_eq]
  simp only [ite_eq_left_iff, reduceCtorEq, imp_false, Decidable.not_not]
  rfl

theorem stmts_of_isProgram {o : Parse.Options} {p : Program} {ts : List Token}
    (h : IsProgram o p ts) :
    (Parse.stmts o ts).results = p.stmts ∧ Parse.skipSpaces (Parse.stmts o ts).left.val = [] := by
  obtain ⟨left, derived, ws⟩ := h
  exact Parse.finds_of_derives derived [] ws closed_nil

theorem isProgram_of_stmts {o : Parse.Options} {ts : List Token}
    (h : Parse.skipSpaces (Parse.stmts o ts).left.val = []) :
    IsProgram o ⟨(Parse.stmts o ts).results⟩ ts :=
  ⟨_, Parse.derives_stmts o ts, Parse.spaces_of_skipSpaces h⟩

/-- A program read to the end is parsed as that program. -/
theorem parse_of_isProgram {o : Parse.Options} {source : Source} {ts : List Token} {p : Program}
    (reads : ReadsAll source ts) (h : IsProgram o p ts) :
    (parse o source).tree = p ∧ (parse o source).error? = none := by
  obtain rfl := reads.tokens
  obtain ⟨hresults, hleft⟩ := stmts_of_isProgram h
  refine ⟨?_, (parse_error_none_iff o source).mpr ⟨reads, hleft⟩⟩
  change Program.mk (Parse.stmts o (Cursor.start source).tokens).results = p
  rw [hresults]

/-- A program is parsed without an error from the sources that are read as it, and from no others. -/
theorem parse_complete_iff {o : Parse.Options} {source : Source} {p : Program} :
    ((parse o source).tree = p ∧ (parse o source).error? = none) ↔
      ∃ ts, ReadsAll source ts ∧ IsProgram o p ts := by
  constructor
  · rintro ⟨rfl, h⟩
    obtain ⟨reads, hleft⟩ := (parse_error_none_iff o source).mp h
    exact ⟨_, reads, isProgram_of_stmts hleft⟩
  · rintro ⟨ts, reads, program⟩
    exact parse_of_isProgram reads program

/-- The parser accepts the grammar, and the tree it returns is the only one the grammar has. -/
theorem parse_accepts_iff_program (o : Parse.Options) (source : Source) :
    ((parse o source).error? = none ↔ ∃ ts p, ReadsAll source ts ∧ IsProgram o p ts) ∧
      ∀ ts p, ReadsAll source ts → IsProgram o p ts → p = (parse o source).tree := by
  constructor
  · constructor
    · intro h
      obtain ⟨reads, hleft⟩ := (parse_error_none_iff o source).mp h
      exact ⟨_, _, reads, isProgram_of_stmts hleft⟩
    · rintro ⟨ts, p, reads, h⟩
      exact (parse_of_isProgram reads h).2
  · intro ts p reads h
    exact (parse_of_isProgram reads h).1.symm

/-! ## Single expressions -/

theorem Cursor.Run.before_eq {c d : Cursor} {ts us left : List Token} (run : c.Run ts d)
    (h : d.tokens = us ++ left) : d.before left = c.before left := by
  obtain ⟨run', hleft⟩ := Cursor.run_before h
  have hboth := (run.trans run').before
  rw [hleft] at hboth
  exact hboth.symm

/-- Passing over the spaces at a cursor leads before the tokens after the spaces. -/
theorem Cursor.skipSpaces_eq_before {c : Cursor} {ts : List Token} (h : c.tokens = ts) :
    c.skipSpaces.2 = c.before (Parse.skipSpaces ts) := by
  obtain ⟨us, d, skips⟩ := Cursor.exists_skips Lexeme.isSpace c
  have hspaces : c.skipSpaces = (us.getLast?, d) := skips.skipWhile_eq
  have hleft : Parse.skipSpaces ts = d.tokens := h ▸ skips.dropWhile_tokens
  rw [hspaces, hleft, skips.run.before]

theorem readAt_of_none {α : Type} {f : List Token → Parse.Outcome α} {c : Cursor}
    (h : (f c.tokens).result = none) : (Parse.readAt f c).result = none := by
  unfold Parse.readAt
  split
  next => rfl
  next hr =>
    rw [hr] at h
    cases h

theorem readAt_of_some {α : Type} {f : List Token → Parse.Outcome α} {c : Cursor} {x : α}
    {left : List Token} (h : (f c.tokens).result = some (x, left)) :
    (Parse.readAt f c).result = some x ∧ (Parse.readAt f c).cursor = c.before left := by
  unfold Parse.readAt
  split
  next hr =>
    rw [hr] at h
    cases h
  next hr =>
    rw [hr] at h
    cases h
    exact ⟨rfl, rfl⟩

theorem Cursor.tokens_skipSpaces (c : Cursor) :
    c.skipSpaces.2.tokens = Parse.skipSpaces c.tokens := by
  obtain ⟨ws, hws⟩ := (Parse.spaces_skipSpaces c.tokens).suffix
  rw [Cursor.skipSpaces_eq_before rfl]
  exact (Cursor.run_before hws.symm).2

theorem parseExpression_of_unmatched {o : Parse.Options} {source : Source}
    (h : (Parse.expr o (Parse.skipSpaces (Cursor.start source).tokens)).matched = none) :
    (parseExpression o source).tree = none := by
  rw [← Cursor.tokens_skipSpaces] at h
  have hresult := readAt_of_none (f := fun ts => (Parse.expr o ts).outcome) h
  change (Parse.readExpr o _).result = _ at hresult
  unfold parseExpression
  simp only [hresult]

/-- What is read as one expression, and the error at the place where reading stops behind it. -/
theorem parseExpression_eq_of_matched {o : Parse.Options} {source : Source} {x : Expr}
    {left : List Token}
    (h : (Parse.expr o (Parse.skipSpaces (Cursor.start source).tokens)).matched = some (x, left)) :
    (parseExpression o source).tree = some x ∧
      (parseExpression o source).error? =
        if ((Cursor.start source).before (Parse.skipSpaces left)).atEnd then none
        else some (.expression ⟨((Cursor.start source).before (Parse.skipSpaces left)).pos, 0⟩) := by
  obtain ⟨ws, hws⟩ := (Parse.spaces_skipSpaces (Cursor.start source).tokens).suffix
  obtain ⟨us, hus⟩ := (Parse.derives_expr h).suffix
  obtain ⟨vs, hvs⟩ := (Parse.spaces_skipSpaces left).suffix
  obtain ⟨run, htokens⟩ := Cursor.run_before hws.symm
  obtain ⟨run', hleft⟩ := Cursor.run_before (htokens.trans hus.symm)
  rw [← Cursor.skipSpaces_eq_before rfl] at run htokens run' hleft
  have hmatched : (Parse.expr o (Cursor.start source).skipSpaces.2.tokens).matched =
      some (x, left) := by
    rw [htokens]
    exact h
  obtain ⟨hresult, hcursor⟩ :=
    readAt_of_some (f := fun ts => (Parse.expr o ts).outcome) hmatched
  change (Parse.readExpr o _).result = _ at hresult
  change (Parse.readExpr o _).cursor = _ at hcursor
  have hstop : (Parse.readExpr o (Cursor.start source).skipSpaces.2).cursor.skipSpaces.2 =
      (Cursor.start source).before (Parse.skipSpaces left) := by
    rw [hcursor, Cursor.skipSpaces_eq_before hleft]
    exact (run.trans run').before_eq (hleft.trans hvs.symm)
  unfold parseExpression
  simp only [hresult, hstop]
  exact ⟨trivial, trivial⟩

/-- What is read as one expression: the tree, and whether an error is reported behind it. -/
theorem parseExpression_of_matched {o : Parse.Options} {source : Source} {x : Expr}
    {left : List Token}
    (h : (Parse.expr o (Parse.skipSpaces (Cursor.start source).tokens)).matched = some (x, left)) :
    (parseExpression o source).tree = some x ∧
      ((parseExpression o source).error? = none ↔
        ReadsAll source (Cursor.start source).tokens ∧ Parse.skipSpaces left = []) := by
  obtain ⟨htree, herror⟩ := parseExpression_eq_of_matched h
  obtain ⟨ts, hts⟩ := (Parse.spaces_skipSpaces left).suffix.trans
    ((Parse.derives_expr h).suffix.trans (Parse.spaces_skipSpaces _).suffix)
  refine ⟨htree, ?_⟩
  rw [← atEnd_before_iff hts.symm, herror]
  simp

/-- The tree of one expression is what is matched behind the spaces at the front. -/
theorem parseExpression_tree_eq (o : Parse.Options) (source : Source) :
    (parseExpression o source).tree =
      (Parse.expr o (Parse.skipSpaces (Cursor.start source).tokens)).matched.map Prod.fst := by
  cases hm : (Parse.expr o (Parse.skipSpaces (Cursor.start source).tokens)).matched with
  | none => exact parseExpression_of_unmatched hm
  | some m => exact (parseExpression_of_matched hm).1

theorem matched_of_tree {o : Parse.Options} {source : Source} {x : Expr}
    (h : (parseExpression o source).tree = some x) :
    ∃ left, (Parse.expr o (Parse.skipSpaces (Cursor.start source).tokens)).matched =
      some (x, left) := by
  rw [parseExpression_tree_eq] at h
  obtain ⟨⟨y, left⟩, hm, rfl⟩ := Option.map_eq_some_iff.mp h
  exact ⟨left, hm⟩

/-- An expression read without an error is matched, and only spaces follow it. -/
theorem matched_of_parseExpression {o : Parse.Options} {source : Source}
    (h : (parseExpression o source).error? = none) :
    ∃ x left, (Parse.expr o (Parse.skipSpaces (Cursor.start source).tokens)).matched =
      some (x, left) ∧ Parse.skipSpaces left = [] := by
  cases hm : (Parse.expr o (Parse.skipSpaces (Cursor.start source).tokens)).matched with
  | none =>
    rw [← Cursor.tokens_skipSpaces] at hm
    have hresult := readAt_of_none (f := fun ts => (Parse.expr o ts).outcome) hm
    change (Parse.readExpr o _).result = _ at hresult
    unfold parseExpression at h
    simp only [hresult, reduceCtorEq] at h
  | some m =>
    obtain ⟨x, left⟩ := m
    exact ⟨x, left, rfl, ((parseExpression_of_matched hm).2.mp h).2⟩

/-- One expression is read without an error from the sources that are read as it, and from no others. -/
theorem parseExpression_complete_iff {o : Parse.Options} {source : Source} {x : Expr} :
    ((parseExpression o source).tree = some x ∧ (parseExpression o source).error? = none) ↔
      ∃ ts, ReadsAll source ts ∧ IsExpression o x ts := by
  constructor
  · rintro ⟨htree, herror⟩
    obtain ⟨left, hm⟩ := matched_of_tree htree
    obtain ⟨reads, hleft⟩ := (parseExpression_of_matched hm).2.mp herror
    exact ⟨_, reads, _, left, Parse.spaces_skipSpaces _, Parse.derives_expr hm,
      Parse.spaces_of_skipSpaces hleft⟩
  · rintro ⟨ts, reads, us, left, ws, derived, ws'⟩
    have stops : StopsExpr left := ws'.stopsExpr nofun
    have hmatched : (Parse.expr o (Parse.skipSpaces ts)).matched = some (x, left) := by
      rw [derived.skipSpaces_eq_expr ws]
      exact Parse.finds_of_derives derived stops
    obtain rfl := reads.tokens
    obtain ⟨htree, herror⟩ := parseExpression_of_matched hmatched
    exact ⟨htree, herror.mpr ⟨reads, ws'.skipSpaces_eq nofun⟩⟩

end LetLang
