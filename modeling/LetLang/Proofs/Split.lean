import LetLang.Proofs.Context
import LetLang.Proofs.Cut
import LetLang.Proofs.Acceptance

/-!
# Where a parse stops

The offset of an error cuts the source in two. Before it stands a program with the same tree; behind it
no statement begins. The parser looked at characters behind the offset when it read the statements
before it, but nothing that it found there is part of them.
-/
namespace LetLang

open Grammar
open Parse (Options)

/-- Without what is left behind the last statement, the tokens are a program. -/
theorem isProgram_of_derives {o : Options} {ss : List Stmt} {all ts left us : List Token}
    (derived : Derives o (.stmts ss) all left) (ws : Spaces left us) (hall : all = ts ++ us) :
    IsProgram o ⟨ss⟩ ts := by
  obtain ⟨q, rfl, hq⟩ := ws.context
  obtain ⟨p, hp, hderives⟩ := derived.context
  have hts : ts = p ++ q := by
    rw [hall, ← List.append_assoc] at hp
    exact List.append_cancel_right hp
  have hspaces := hq []
  rw [List.append_nil] at hspaces
  rw [hts]
  exact ⟨q, hderives q (noNewDigit_append_left q us), hspaces⟩

/-- The reading of a program stops behind a program, before no space and no statement. -/
theorem readProgram_stops (o : Options) (c : Cursor) :
    ∃ ts, c.Run ts (Parse.readProgram o c).cursor ∧
      IsProgram o (Parse.readProgram o c).result ts ∧
      (∀ x, headLexeme (Parse.readProgram o c).cursor.tokens = some x → x.isSpace = false) ∧
      (Parse.stmt o (Parse.readProgram o c).cursor.tokens).matched = none := by
  obtain ⟨ts, hts⟩ := suffix_after_stmts o c.tokens
  obtain ⟨run, hleft⟩ := Cursor.run_before hts.symm
  change (Parse.readProgram o c).cursor.tokens = _ at hleft
  refine ⟨ts, run, ?_, ?_, ?_⟩
  · exact isProgram_of_derives (Parse.derives_stmts o c.tokens) (Parse.spaces_skipSpaces _) hts.symm
  · intro x hx
    rw [hleft] at hx
    exact isSpace_head_skipSpaces hx
  · rw [hleft]
    exact Parse.matched_stmt_after_stmts o c.tokens

theorem Lexeme.ofChar?_space (w : Space) : Lexeme.ofChar? w.char = some (.space w) := by
  cases w <;> decide

/-- A space is read where one stands. -/
theorem Cursor.headLexeme_of_space {c : Cursor} {w : Space}
    (h : c.source[c.pos]? = some (.char w.char)) : headLexeme c.tokens = some (.space w) := by
  have hhead : c.rest.head? = some (.char w.char) := by
    rw [Cursor.rest, List.head?_drop, h]
  obtain ⟨rs, hrest⟩ := List.head?_eq_some_iff.mp hhead
  have hlexeme : (SourceChar.char w.char).lexeme? = some (.space w) := Lexeme.ofChar?_space w
  have hscan : scan c.rest = some (.space w, 1) := by
    rw [hrest, scan]
    simp only [hlexeme]
  rw [Cursor.tokens, tokensFrom_of_some hscan]
  rfl

/-- A source that does not begin with a space or a statement has none, and the error is right at its
start. -/
theorem parse_of_unmatched {o : Options} {source : Source} (hne : source ≠ [])
    (hskip : Parse.skipSpaces (Cursor.start source).tokens = (Cursor.start source).tokens)
    (h : (Parse.stmt o (Parse.skipSpaces (Cursor.start source).tokens)).matched = none) :
    (parse o source).tree.stmts = [] ∧ (parse o source).error? = some (.program ⟨0, 0⟩) := by
  obtain ⟨hresults, hleft⟩ := Parse.stmts_of_unmatched h
  have hcursor : (Parse.readProgram o (Cursor.start source)).cursor = Cursor.start source := by
    unfold Parse.readProgram
    simp only [hleft, hskip, Cursor.before_tokens]
  have hend : (Cursor.start source).atEnd = false := by
    simpa [Cursor.atEnd, Cursor.start] using hne
  have hstmts : (parse o source).tree.stmts = [] := hresults
  refine ⟨hstmts, ?_⟩
  rw [parse_error_eq, hcursor, hend, hstmts]
  rfl

/-- Behind the place where the statements of a source end, none can be read either. -/
theorem parse_drop_of_unmatched {o : Options} {c : Cursor} (hend : c.atEnd = false)
    (hhead : ∀ x, headLexeme c.tokens = some x → x.isSpace = false)
    (h : (Parse.stmt o c.tokens).matched = none) :
    (parse o c.rest).tree.stmts = [] ∧ (parse o c.rest).error? = some (.program ⟨0, 0⟩) := by
  have hne : c.rest ≠ [] := by
    intro hnil
    have hle := List.drop_eq_nil_iff.mp hnil
    rw [Cursor.atEnd_iff.mpr hle] at hend
    cases hend
  have htokens := c.tokens_eq_relabel
  have hhead' : ∀ x, headLexeme (Cursor.start c.rest).tokens = some x → x.isSpace = false := by
    intro x hx
    refine hhead x ?_
    rw [htokens, Parse.headLexeme_relabel]
    exact hx
  have hskip := skipSpaces_of_head hhead'
  have hmatched := Parse.stmt_relabel o (· + c.pos) (· + c.pos) (Cursor.start c.rest).tokens
  rw [← htokens, h] at hmatched
  refine parse_of_unmatched hne hskip ?_
  rw [hskip]
  exact Option.map_eq_none_iff.mp hmatched.symm

/-- The error of a parse splits the source. What stands before the offset is parsed as the same
program without an error, with the same spans; what stands behind it begins with no statement. -/
theorem parse_error_splits {o : Options} {source : Source} {e : ParseError}
    (h : (parse o source).error? = some e) :
    ∃ k : Nat, e = .program ⟨k, (parse o source).tree.stmts.length⟩ ∧ k < source.length ∧
      (∀ w : Space, source[k]? ≠ some (.char w.char)) ∧
      (parse o (source.take k)).tree = (parse o source).tree ∧
      (parse o (source.take k)).error? = none ∧
      (parse o (source.drop k)).tree.stmts = [] ∧
      (parse o (source.drop k)).error? = some (.program ⟨0, 0⟩) := by
  obtain ⟨ts, run, program, nospace, unmatched⟩ := readProgram_stops o (Cursor.start source)
  have hsource : (Parse.readProgram o (Cursor.start source)).cursor.source = source := run.source
  rw [parse_error_eq] at h
  split at h
  next => cases h
  next hend =>
    cases h
    have hpos := (not_congr Cursor.atEnd_iff).mp hend
    rw [hsource] at hpos
    obtain ⟨htree, herror⟩ := parse_of_isProgram (readsAll_take run) program
    obtain ⟨hstmts, herror'⟩ := parse_drop_of_unmatched (by simpa using hend) nospace unmatched
    rw [Cursor.rest, hsource] at hstmts herror'
    refine ⟨_, rfl, by omega, ?_, htree, herror, hstmts, herror'⟩
    intro w hw
    have hspace := nospace (.space w) (Cursor.headLexeme_of_space (by rw [hsource]; exact hw))
    cases hspace

theorem parse_error_splits_unclosed_call :
    (parse .all [.char 'a', .char ' ', .char '(', .char '1']).error? = some (.program ⟨2, 1⟩) ∧
      (parse .all [.char 'a', .char ' ']).tree =
        (parse .all [.char 'a', .char ' ', .char '(', .char '1']).tree ∧
      (parse .all [.char 'a', .char ' ']).error? = none ∧
      (parse .all [.char '(', .char '1']).tree.stmts = [] ∧
      (parse .all [.char '(', .char '1']).error? = some (.program ⟨0, 0⟩) := by
  have herror : (parse .all [.char 'a', .char ' ', .char '(', .char '1']).error? =
      some (.program ⟨2, 1⟩) := by decide +kernel
  obtain ⟨k, hk, -, -, htree, hnone, hstmts, hsome⟩ := parse_error_splits herror
  obtain rfl : k = 2 := by
    simp only [ParseError.program.injEq, Incomplete.mk.injEq] at hk
    omega
  exact ⟨herror, htree, hnone, hstmts, hsome⟩

end LetLang
