import LetLang.Proofs.Acceptance

/-!
# A complete parse gives nothing up

The parser makes a note whenever it gives an attempt up that began well: a binding without a name, an
equals sign or a value, a parenthesis that leads to no call, a block that does not close, a number that
is too large. It then goes on with another alternative, but none of them can save the parse: what it
stumbled over is still there and no phrase can begin with it. So a source that is parsed to its end
leaves no note behind but the summary of the program.

This is followed along the derivation of what is parsed. Wherever the productions find a derived phrase,
they find it without a note.
-/
namespace LetLang.Parse

open Grammar

/-- The notes that an attempt leaves. -/
def Attempt.notes {α : Type} {ts : List Token} (a : Attempt α ts) : List Note :=
  a.outcome.log.toList

theorem Attempt.outcome_of_matched {α : Type} {ts : List Token} {a : Attempt α ts}
    {m : α × List Token} (h : a.matched = some m) : a.outcome = ⟨a.outcome.log, some m⟩ := by
  rw [← h]
  rfl

/-! ## Where no phrase begins -/

theorem primary_of_head {o : Options} {ts : List Token}
    (h : ∀ x, headLexeme ts = some x → beginsExpr x = false) :
    (primary o ts).outcome = ⟨.empty, none⟩ := by
  cases ts with
  | nil => exact primary_nil o
  | cons t ts =>
    have ht := h t.lexeme rfl
    rw [primary_outcome]
    split
    case h_7 => rfl
    all_goals
      rename_i hx
      rw [hx] at ht
      cases ht

/-- Where no expression can begin, none is tried far enough to leave a note. -/
theorem exprStmt_of_head {o : Options} {ts : List Token}
    (h : ∀ x, headLexeme ts = some x → beginsExpr x = false) :
    (exprStmt o ts).outcome = ⟨.empty, none⟩ := by
  rw [exprStmt_outcome, expr_eq, call_outcome, access_outcome, primary_of_head h]

theorem letStmt_of_head {o : Options} {ts : List Token}
    (h : headLexeme ts ≠ some (.keyword .letKw)) : (letStmt o ts).outcome = ⟨.empty, none⟩ := by
  rw [letStmt_outcome]
  split
  next => exact absurd rfl h
  next => rfl

theorem stmt_of_head {o : Options} {ts : List Token}
    (h : ∀ x, headLexeme ts = some x → beginsStmt x = false) :
    (stmt o ts).outcome = ⟨.empty, none⟩ := by
  have hlet : headLexeme ts ≠ some (.keyword .letKw) := by
    intro hx
    exact absurd (h _ hx) (by decide)
  have hexpr : ∀ x, headLexeme ts = some x → beginsExpr x = false := by
    intro x hx
    exact (Bool.or_eq_false_iff.mp (h x hx)).2
  rw [stmt_outcome, letStmt_of_head hlet, exprStmt_of_head hexpr]
  rfl

/-! ## Where a phrase is derived -/

/-- The productions find the phrase without a note, if nothing behind it could extend it. -/
def Silent (o : Options) (ts rest : List Token) : Phrase → Prop
  | .stmts _ => ∀ us, Spaces rest us → Closed us → (stmts o ts).log.toList = []
  | .stmt _ => StopsStmt rest → (stmt o ts).notes = []
  | .letStmt _ => StopsStmt rest → (letStmt o ts).notes = []
  | .exprStmt _ => StopsStmt rest → (exprStmt o ts).notes = []
  | .expr _ => StopsExpr rest → (expr o ts).notes = []
  | .access _ => (access o ts).notes = []
  | .primary _ => (primary o ts).notes = []
  | .number _ => (number ts).notes = []
  | .block _ => (block o ts).notes = []

section Silent

variable {o : Options} {ts ts₁ ts₂ ts₃ ts₄ rest : List Token}

theorem silent_noStmt (ts : List Token) : Silent o ts ts (.stmts []) := by
  intro us ws closed
  have hskip := ws.skipSpaces_eq_of_endsStmt closed.ends
  have hnone : (stmt o (skipSpaces ts)).outcome = ⟨.empty, none⟩ := by
    rw [hskip]
    refine stmt_of_head fun x hx => ?_
    rw [closed x hx]
    rfl
  rw [(stmts_of_none hnone).1]
  rfl

theorem silent_moreStmts {s : Stmt} {ss : List Stmt} (ws : Spaces ts ts₁)
    (head : Derives o (.stmt s) ts₁ ts₂) (tail : Derives o (.stmts ss) ts₂ rest)
    (hs : Silent o ts₁ ts₂ (.stmt s)) (hss : Silent o ts₂ rest (.stmts ss)) :
    Silent o ts rest (.stmts (s :: ss)) := by
  intro us ws' closed
  have stops := tail.stopsStmt ws' closed
  have hnotes : (stmt o (skipSpaces ts)).notes = [] := by
    rw [head.skipSpaces_eq ws]
    exact hs stops
  have hmatched : (stmt o (skipSpaces ts)).matched = some (s, ts₂) := by
    rw [head.skipSpaces_eq ws]
    exact finds_of_derives head stops
  rw [(stmts_of_some (Attempt.outcome_of_matched hmatched)).1, Log.toList_append, hss us ws' closed,
    List.append_nil]
  exact hnotes

theorem silent_letStmt {s : Stmt} (h : Derives o (.letStmt s) ts rest)
    (hs : Silent o ts rest (.letStmt s)) : Silent o ts rest (.stmt s) := by
  intro stops
  have hmatched := Attempt.outcome_of_matched (finds_of_derives h stops)
  rw [Attempt.notes, stmt_outcome, hmatched]
  exact hs stops

theorem silent_exprStmt {s : Stmt} (h : Derives o (.exprStmt s) ts rest)
    (hs : Silent o ts rest (.exprStmt s)) : Silent o ts rest (.stmt s) := by
  intro stops
  obtain ⟨x, hx, hb⟩ := h.begins
  have hlet : (letStmt o ts).outcome = ⟨.empty, none⟩ := by
    refine letStmt_of_head fun hl => ?_
    rw [hx] at hl
    cases hl
    cases hb
  rw [Attempt.notes, stmt_outcome, hlet]
  exact hs stops

theorem silent_binding {first last nameFirst nameLast eqFirst eqLast : Nat} {name : List Char}
    {value : Expr} {stop : Int} (ws : Spaces ts (⟨.ident name, nameFirst, nameLast⟩ :: ts₁))
    (ws₁ : Spaces ts₁ (⟨.operator .equal, eqFirst, eqLast⟩ :: ts₂)) (ws₂ : Spaces ts₂ ts₃)
    (bound : Derives o (.expr value) ts₃ ts₄) (ending : Ending value.span.stop ts₄ stop rest)
    (hv : Silent o ts₃ ts₄ (.expr value)) :
    Silent o (⟨.keyword .letKw, first, last⟩ :: ts) rest
      (.letStmt (.binding (some ⟨Text.ofChars name, ⟨nameFirst, nameLast⟩⟩) value ⟨first, stop⟩)) := by
  intro stops
  have hstop := (closeStmt_of_ending ending stops).2
  have hname := ws.skipSpaces_eq (by rintro x ⟨⟩; rfl)
  have hequal := ws₁.skipSpaces_eq (by rintro x ⟨⟩; rfl)
  have hvalue := Attempt.outcome_of_matched (finds_of_derives bound hstop)
  rw [Attempt.notes, letStmt_outcome]
  simp only [hname, hequal]
  rw [bound.skipSpaces_eq_expr ws₂, hvalue]
  exact hv hstop

theorem silent_stated {value : Expr} {stop : Int} (said : Derives o (.expr value) ts ts₁)
    (ending : Ending value.span.stop ts₁ stop rest) (hv : Silent o ts ts₁ (.expr value)) :
    Silent o ts rest (.exprStmt (.stated value ⟨value.span.start, stop⟩)) := by
  intro stops
  have hstop := (closeStmt_of_ending ending stops).2
  have hvalue := Attempt.outcome_of_matched (finds_of_derives said hstop)
  rw [Attempt.notes, exprStmt_outcome, hvalue]
  exact hv hstop

/-- A callee that no parenthesis follows is not tried as a call. -/
theorem silent_bare {e : Expr} (h : Derives o (.access e) ts rest)
    (hs : Silent o ts rest (.access e)) : Silent o ts rest (.expr e) := by
  intro stops
  have hcallee := Attempt.outcome_of_matched (matched_access_of_finds (finds_of_derives h) stops.noDot)
  rw [Attempt.notes, expr_eq, call_outcome, hcallee]
  simp only
  split
  next hparen =>
    have hnone := stops.noParen
    rw [hparen] at hnone
    exact absurd rfl hnone
  next => exact hs

theorem silent_call {called input : Expr} {first last first' last' : Nat}
    (callee : Derives o (.access called) ts ts₁)
    (ws : Spaces ts₁ (⟨.bracket ⟨.paren, true⟩, first, last⟩ :: ts₂)) (ws₁ : Spaces ts₂ ts₃)
    (argument : Derives o (.expr input) ts₃ ts₄)
    (ws₂ : Spaces ts₄ (⟨.bracket ⟨.paren, false⟩, first', last'⟩ :: rest))
    (hc : Silent o ts ts₁ (.access called)) (hi : Silent o ts₃ ts₄ (.expr input)) :
    Silent o ts rest (.expr (.call called input ⟨called.span.start, last'⟩)) := by
  intro _
  have hopen := ws.skipSpaces_eq (by rintro x ⟨⟩; rfl)
  have hclose := ws₂.skipSpaces_eq (by rintro x ⟨⟩; rfl)
  have hstop : StopsExpr ts₄ := ws₂.stopsExpr (by rintro x ⟨⟩; rfl)
  have hdot := ws.noDot nofun
  have hcallee := Attempt.outcome_of_matched (matched_access_of_finds (finds_of_derives callee) hdot)
  have hinput := Attempt.outcome_of_matched (finds_of_derives argument hstop)
  have hnotes : (access o ts).notes ++ (expr o ts₃).notes = [] := by
    rw [show (access o ts).notes = [] from hc, hi hstop, List.append_nil]
  rw [Attempt.notes, expr_eq, call_outcome, hcallee]
  simp only [hopen]
  rw [argument.skipSpaces_eq_expr ws₁, hinput]
  simp only [hclose, Log.toList_append]
  exact hnotes

theorem silent_target {e : Expr} (h : Derives o (.primary e) ts rest)
    (hs : Silent o ts rest (.primary e)) : Silent o ts rest (.access e) := by
  have hmatched := Attempt.outcome_of_matched (finds_of_derives h)
  change (access o ts).outcome.log.toList = []
  rw [access_outcome, hmatched]
  exact hs

theorem silent_number {e : Expr} (h : Derives o (.number e) ts rest) :
    Silent o ts rest (.number e) := by
  cases h with
  | number digits maximal fits =>
    change (number _).outcome.log.toList = []
    rw [number_outcome_run digits maximal, if_pos fits]
    rfl

theorem silent_numeral {e : Expr} (h : Derives o (.number e) ts rest)
    (hs : Silent o ts rest (.number e)) : Silent o ts rest (.primary e) := by
  cases h with
  | @number t run rest ds digits _ _ =>
    cases ds with
    | nil => simp at digits
    | cons d ds =>
      simp only [List.map_cons, List.cons.injEq] at digits
      change (primary o (t :: (run ++ rest))).outcome.log.toList = []
      rw [primary_outcome, digits.1]
      exact hs

theorem silent_braced {e : Expr} (on : o.blocks = true) (h : Derives o (.block e) ts rest)
    (hs : Silent o ts rest (.block e)) : Silent o ts rest (.primary e) := by
  cases h with
  | @block ss first last first' last' ts ts₁ rest body ws =>
    change (primary o (⟨.bracket ⟨.curly, true⟩, first, last⟩ :: ts)).outcome.log.toList = []
    rw [primary_outcome]
    simp only [on, ↓reduceIte]
    exact hs

theorem silent_block {ss : List Stmt} {first last first' last' : Nat}
    (body : Derives o (.stmts ss) ts ts₁)
    (ws : Spaces ts₁ (⟨.bracket ⟨.curly, false⟩, first', last'⟩ :: rest))
    (hs : Silent o ts ts₁ (.stmts ss)) :
    Silent o (⟨.bracket ⟨.curly, true⟩, first, last⟩ :: ts) rest
      (.block (.block ss ⟨first, last'⟩)) := by
  have closed : Closed (⟨.bracket ⟨.curly, false⟩, first', last'⟩ :: rest) := by
    rintro x ⟨⟩
    rfl
  have hleft := (finds_of_derives body _ ws closed).2
  change (block o (⟨.bracket ⟨.curly, true⟩, first, last⟩ :: ts)).outcome.log.toList = []
  rw [block_outcome]
  simp only [hleft]
  exact hs _ ws closed

end Silent

/-- The productions leave no note on what the grammar derives. -/
theorem silent_of_derives {o : Options} {φ : Phrase} {ts rest : List Token}
    (h : Derives o φ ts rest) : Silent o ts rest φ := by
  induction h with
  | noStmt ts => exact silent_noStmt ts
  | moreStmts ws head tail ihs ihss => exact silent_moreStmts ws head tail ihs ihss
  | letStmt h ih => exact silent_letStmt h ih
  | exprStmt h ih => exact silent_exprStmt h ih
  | binding ws ws₁ ws₂ bound ending ih => exact silent_binding ws ws₁ ws₂ bound ending ih
  | stated said ending ih => exact silent_stated said ending ih
  | bare h ih => exact silent_bare h ih
  | call callee ws ws₁ argument ws₂ ihc ihi => exact silent_call callee ws ws₁ argument ws₂ ihc ihi
  | target h ih => exact silent_target h ih
  -- a field is read by the production that read its target, so nothing is added
  | field _ _ ih => exact ih
  | ident | trueLit | falseLit | quoted => exact congrArg (·.log.toList) (primary_outcome o _ _)
  | numeral h ih => exact silent_numeral h ih
  | braced on h ih => exact silent_braced on h ih
  | number digits maximal fits => exact silent_number (.number (o := o) digits maximal fits)
  | block body ws ih => exact silent_block body ws ih

theorem notes_readAt {α : Type} (f : List Token → Outcome α) (c : Cursor) :
    (readAt f c).notes = (f c.tokens).log.toList := by
  unfold readAt
  split
  next h => rw [h]
  next h => rw [h]

end LetLang.Parse

namespace LetLang

open Grammar

/-- A program that is parsed to the end of its source is read up to there. -/
theorem pos_readProgram_of_complete {o : Parse.Options} {source : Source}
    (h : (parse o source).error? = none) :
    (Parse.readProgram o (Cursor.start source)).cursor.pos = source.length := by
  obtain ⟨reads, hleft⟩ := (parse_error_none_iff o source).mp h
  have hstop := reads.run.before
  rw [Cursor.tokens_of_next?_none (Cursor.next?_of_atEnd (Cursor.atEnd_iff.mpr (Nat.le_refl _)))] at hstop
  change ((Cursor.start source).before (Parse.skipSpaces _)).pos = _
  rw [hleft, hstop]

theorem notes_of_complete_parse {o : Parse.Options} {source : Source}
    (h : (parse o source).error? = none) :
    (parse o source).notes = [.stopped (parse o source).tree.stmts.length source.length] := by
  have hleft := ((parse_error_none_iff o source).mp h).2
  have derived := Parse.derives_stmts o (Cursor.start source).tokens
  have hlog := Parse.silent_of_derives derived [] (Parse.spaces_of_skipSpaces hleft) closed_nil
  change (Parse.stmts o (Cursor.start source).tokens).log.toList ++ [Note.stopped _ _] = _
  rw [hlog, List.nil_append, ← pos_readProgram_of_complete h]
  rfl

theorem notes_of_complete_parseExpression {o : Parse.Options} {source : Source}
    (h : (parseExpression o source).error? = none) : (parseExpression o source).notes = [] := by
  have hnotes : (parseExpression o source).notes =
      (Parse.expr o (Parse.skipSpaces (Cursor.start source).tokens)).notes := by
    rw [← Cursor.tokens_skipSpaces]
    have hread := Parse.notes_readAt (fun ts => (Parse.expr o ts).outcome)
      (Cursor.start source).skipSpaces.2
    unfold parseExpression
    simp only
    split
    next => exact hread
    next => exact hread
  obtain ⟨x, left, hmatched, hleft⟩ := matched_of_parseExpression h
  have stops : StopsExpr left := (Parse.spaces_of_skipSpaces hleft).stopsExpr nofun
  rw [hnotes]
  exact Parse.silent_of_derives (Parse.derives_expr hmatched) stops

/-- A source that is parsed to its end leaves no note of an attempt that was given up: for a program
there is the summary alone, with the number of statements and the length of the source, and for an
expression there is nothing. -/
theorem complete_parse_gives_nothing_up (o : Parse.Options) (source : Source) :
    ((parse o source).error? = none →
      (parse o source).notes = [.stopped (parse o source).tree.stmts.length source.length] ∧
      (parse o source).notes.map Note.message =
        ["parsed " ++ Decimal.string (parse o source).tree.stmts.length ++
          " statements, stopped at offset " ++ Decimal.string source.length]) ∧
    ((parseExpression o source).error? = none → (parseExpression o source).notes = []) := by
  refine ⟨fun h => ⟨notes_of_complete_parse h, ?_⟩, notes_of_complete_parseExpression⟩
  rw [notes_of_complete_parse h]
  rfl

theorem complete_parse_gives_nothing_up_nested_call :
    (parse .all ("let a = \x7bf (1); b.c\x7d; a".toList.map .char)).error? = none ∧
      (parse .all ("let a = \x7bf (1); b.c\x7d; a".toList.map .char)).notes = [.stopped 2 23] ∧
      (parseExpression .all (" f (\x7b'x'\x7d) ".toList.map .char)).error? = none ∧
      (parseExpression .all (" f (\x7b'x'\x7d) ".toList.map .char)).notes = [] := by
  have hprogram : (parse .all ("let a = \x7bf (1); b.c\x7d; a".toList.map .char)).error? = none := by
    decide +kernel
  have hexpr : (parseExpression .all (" f (\x7b'x'\x7d) ".toList.map .char)).error? = none := by
    decide +kernel
  have hcount : (parse .all ("let a = \x7bf (1); b.c\x7d; a".toList.map .char)).tree.stmts.length = 2 := by
    decide +kernel
  obtain ⟨hnotes, -⟩ := (complete_parse_gives_nothing_up .all _).1 hprogram
  rw [hcount] at hnotes
  exact ⟨hprogram, hnotes, hexpr, (complete_parse_gives_nothing_up .all _).2 hexpr⟩

end LetLang
