import LetLang.Proofs.MapSpan
import LetLang.Proofs.Soundness

/-!
# Tokens at other positions

The productions look at lexemes and copy positions. If the first positions of all tokens are changed by
one function and the last positions by another, a production matches exactly as before, leaves the same
tokens, and gives the same tree with the positions in its spans changed alike.
-/
namespace LetLang

/-- A token with its first position changed by `f` and its last one by `g`. -/
def Token.relabel (f g : Nat → Nat) (t : Token) : Token :=
  ⟨t.lexeme, f t.first, g t.last⟩

/-- A span of changed tokens. -/
def Span.relabel (f g : Nat → Nat) (s : Span) : Span :=
  ⟨f s.start.toNat, g s.stop.toNat⟩

theorem Expr.span_mapSpan {e : Expr} (h : e.isAbsent = false) (f : Span → Span) :
    (e.mapSpan f).span = f e.span := by
  cases e with
  | absent => cases h
  | _ => rfl

namespace Parse

open Grammar

section Relabel

variable {o : Options} {f g : Nat → Nat} {ts : List Token}

/-- A matched tree at other positions, with the tokens left. -/
def relabelExpr (f g : Nat → Nat) (m : Expr × List Token) : Expr × List Token :=
  (m.1.mapSpan (Span.relabel f g), m.2.map (Token.relabel f g))

def relabelStmt (f g : Nat → Nat) (m : Stmt × List Token) : Stmt × List Token :=
  (m.1.mapSpan (Span.relabel f g), m.2.map (Token.relabel f g))

theorem exists_of_relabel {x : Lexeme} {first last : Nat} {us : List Token}
    (h : ts.map (Token.relabel f g) = ⟨x, first, last⟩ :: us) :
    ∃ first' last' us', ts = ⟨x, first', last'⟩ :: us' := by
  obtain ⟨t, us', rfl, ht, -⟩ := List.map_eq_cons_iff.mp h
  obtain ⟨y, first', last'⟩ := t
  cases ht
  exact ⟨first', last', us', rfl⟩

theorem lexemes_relabel (ts : List Token) :
    (ts.map (Token.relabel f g)).map Token.lexeme = ts.map Token.lexeme := by
  rw [List.map_map]
  rfl

theorem skipSpaces_relabel (ts : List Token) :
    skipSpaces (ts.map (Token.relabel f g)) = (skipSpaces ts).map (Token.relabel f g) := by
  rw [skipSpaces, List.dropWhile_map]
  rfl

theorem closeStmt_relabel (stop : Int) (ts : List Token) :
    closeStmt (g stop.toNat) (ts.map (Token.relabel f g)) =
      ((g (closeStmt stop ts).1.toNat : Int), (closeStmt stop ts).2.map (Token.relabel f g)) := by
  unfold closeStmt
  rw [skipSpaces_relabel]
  cases skipSpaces ts with
  | nil => rfl
  | cons t us =>
    obtain ⟨x, first, last⟩ := t
    cases x with
    | punct p => cases p <;> rfl
    | _ => rfl

/-- The end of a statement whose expression is at other positions. -/
theorem closeStmt_mapSpan {value : Expr} (h : value.isAbsent = false) (ts : List Token) :
    closeStmt (value.mapSpan (Span.relabel f g)).span.stop (ts.map (Token.relabel f g)) =
      ((g (closeStmt value.span.stop ts).1.toNat : Int),
        (closeStmt value.span.stop ts).2.map (Token.relabel f g)) := by
  rw [value.span_mapSpan h]
  exact closeStmt_relabel value.span.stop ts

theorem headLexeme_relabel (ts : List Token) :
    headLexeme (ts.map (Token.relabel f g)) = headLexeme ts := by
  cases ts with
  | nil => rfl
  | cons t ts => rfl

theorem digitFirst_relabel (ts : List Token) :
    DigitFirst (ts.map (Token.relabel f g)) ↔ DigitFirst ts := by
  rw [DigitFirst, headLexeme_relabel]
  rfl

theorem getLastD_relabel (t : Token) (ts : List Token) :
    (ts.map (Token.relabel f g)).getLastD (t.relabel f g) = (ts.getLastD t).relabel f g := by
  rw [List.getLastD_eq_getLast?, List.getLastD_eq_getLast?, List.getLast?_map, Option.getD_map]

theorem number_relabel (ts : List Token) :
    (number (ts.map (Token.relabel f g))).matched = (number ts).matched.map (relabelExpr f g) := by
  obtain ⟨run, rest, ds, rfl, digits, maximal⟩ := exists_run_of_digits ts
  have maximal' := (not_congr (digitFirst_relabel (f := f) (g := g) rest)).mpr maximal
  cases run with
  | nil =>
    rw [List.nil_append, matched_number_of_noDigit maximal, matched_number_of_noDigit maximal']
    rfl
  | cons t run =>
    have digits' := (lexemes_relabel (f := f) (g := g) (t :: run)).trans digits
    rw [List.cons_append, List.map_cons, List.map_append, matched_number_run digits' maximal',
      matched_number_run digits maximal, getLastD_relabel]
    by_cases fits : Decimal.value 0 ds ≤ 0xFFFFFFFF
    · rw [if_pos fits, if_pos fits]
      rfl
    · rw [if_neg fits, if_neg fits]
      rfl

theorem fields_relabel {target : Expr} (h : target.isAbsent = false) (ts : List Token) :
    fields (target.mapSpan (Span.relabel f g)) (ts.map (Token.relabel f g)) =
      relabelExpr f g (fields target ts) := by
  fun_induction fields target ts with
  | case1 target _ _ name first last ts ih =>
    rw [List.map_cons, List.map_cons, Token.relabel, Token.relabel, fields, target.span_mapSpan h]
    exact ih rfl
  | case2 target ts other =>
    unfold fields
    split
    next hs =>
      obtain ⟨dotFirst, dotLast, us, rfl⟩ := exists_of_relabel hs
      obtain ⟨first', last', us', rfl⟩ := exists_of_relabel (List.cons.inj hs).2
      exact absurd rfl (other _ _ _ _ _ _)
    next => rfl

/-- The productions commute with relabelling on all lists of tokens shorter than `n`. -/
structure RelabelsBelow (o : Options) (f g : Nat → Nat) (n : Nat) : Prop where
  expr : ∀ {ts : List Token}, ts.length < n →
    (Parse.expr o (ts.map (Token.relabel f g))).matched =
      (Parse.expr o ts).matched.map (relabelExpr f g)
  stmts : ∀ ts : List Token, ts.length < n →
    (Parse.stmts o (ts.map (Token.relabel f g))).results =
        Stmt.mapSpanAll (Span.relabel f g) (Parse.stmts o ts).results ∧
      (Parse.stmts o (ts.map (Token.relabel f g))).left.val =
        (Parse.stmts o ts).left.val.map (Token.relabel f g)

theorem RelabelsBelow.mono {m n : Nat} (below : RelabelsBelow o f g n) (h : m ≤ n) :
    RelabelsBelow o f g m :=
  ⟨fun hlt => below.expr (Nat.lt_of_lt_of_le hlt h),
    fun ts hlt => below.stmts ts (Nat.lt_of_lt_of_le hlt h)⟩

theorem RelabelsBelow.block (below : RelabelsBelow o f g ts.length) :
    (block o (ts.map (Token.relabel f g))).matched =
      (block o ts).matched.map (relabelExpr f g) := by
  rw [matched_block, matched_block]
  cases ts with
  | nil => rfl
  | cons t ts =>
    obtain ⟨hresults, hleft⟩ := below.stmts ts (by simp)
    obtain ⟨x, first, last⟩ := t
    cases x with
    | bracket b =>
      obtain ⟨shape, isOpen⟩ := b
      cases shape <;> cases isOpen <;> try rfl
      simp only [List.map_cons, Token.relabel, hresults, hleft, skipSpaces_relabel]
      cases skipSpaces (Parse.stmts o ts).left.val with
      | nil => rfl
      | cons t us =>
        obtain ⟨x, first', last'⟩ := t
        cases x with
        | bracket b =>
          obtain ⟨shape, isOpen⟩ := b
          cases shape <;> cases isOpen <;> rfl
        | _ => rfl
    | _ => rfl

theorem RelabelsBelow.primary (below : RelabelsBelow o f g ts.length) :
    (primary o (ts.map (Token.relabel f g))).matched =
      (primary o ts).matched.map (relabelExpr f g) := by
  cases ts with
  | nil =>
    rw [List.map_nil, matched_primary_nil]
    rfl
  | cons t ts =>
    have hnumber := number_relabel (f := f) (g := g) (t :: ts)
    have hblock := below.block
    obtain ⟨x, first, last⟩ := t
    rw [List.map_cons] at hnumber hblock ⊢
    rw [matched_primary, matched_primary, hnumber, hblock]
    simp only [Token.relabel]
    cases x with
    | keyword k => cases k <;> rfl
    | bracket b =>
      obtain ⟨shape, isOpen⟩ := b
      cases shape <;> cases isOpen <;> try rfl
      by_cases on : o.blocks = true
      · simp only [on, ↓reduceIte]
      · simp only [on, Bool.false_eq_true, ↓reduceIte]
        rfl
    | _ => rfl

theorem RelabelsBelow.access (below : RelabelsBelow o f g ts.length) :
    (access o (ts.map (Token.relabel f g))).matched =
      (access o ts).matched.map (relabelExpr f g) := by
  rw [matched_access, matched_access, below.primary]
  cases hp : (Parse.primary o ts).matched with
  | none => rfl
  | some m =>
    obtain ⟨target, left⟩ := m
    -- the span of an absent tree is fixed and would not follow its tokens
    have present : target.isAbsent = false := ((soundBelow o ts.length).primary hp).present
    by_cases on : o.access = true
    · simp only [Option.map_some, relabelExpr, on, ↓reduceIte, fields_relabel present]
    · simp only [Option.map_some, relabelExpr, on, Bool.false_eq_true, ↓reduceIte]

theorem RelabelsBelow.exprAt (below : RelabelsBelow o f g ts.length) :
    (Parse.expr o (ts.map (Token.relabel f g))).matched =
      (Parse.expr o ts).matched.map (relabelExpr f g) := by
  rw [matched_expr, matched_expr, below.access]
  cases ha : (Parse.access o ts).matched with
  | none => rfl
  | some m =>
    obtain ⟨called, left⟩ := m
    have present : called.isAbsent = false := ((soundBelow o ts.length).access ha).present
    have hlt := Attempt.length_matched ha
    simp only [Option.map_some, relabelExpr, skipSpaces_relabel]
    cases hs : skipSpaces left with
    | nil => rfl
    | cons t us =>
      have hus := length_lt_of_skipSpaces hs
      have hle := length_skipSpaces_le us
      have hinput := below.expr (show (skipSpaces us).length < ts.length by omega)
      rw [← skipSpaces_relabel] at hinput
      obtain ⟨x, first, last⟩ := t
      cases x with
      | bracket b =>
        obtain ⟨shape, isOpen⟩ := b
        cases shape <;> cases isOpen <;> try rfl
        simp only [List.map_cons, Token.relabel, hinput]
        cases (Parse.expr o (skipSpaces us)).matched with
        | none => rfl
        | some m =>
          obtain ⟨input, left₂⟩ := m
          simp only [Option.map_some, relabelExpr, skipSpaces_relabel, called.span_mapSpan present]
          cases skipSpaces left₂ with
          | nil => rfl
          | cons t rest =>
            obtain ⟨x, first', last'⟩ := t
            cases x with
            | bracket b =>
              obtain ⟨shape, isOpen⟩ := b
              cases shape <;> cases isOpen <;> rfl
            | _ => rfl
      | _ => rfl

theorem RelabelsBelow.letStmt (below : RelabelsBelow o f g ts.length) :
    (letStmt o (ts.map (Token.relabel f g))).matched =
      (letStmt o ts).matched.map (relabelStmt f g) := by
  rw [matched_letStmt, matched_letStmt]
  cases ts with
  | nil => rfl
  | cons t us =>
    obtain ⟨x, first, last⟩ := t
    cases x with
    | keyword k =>
      cases k with
      | letKw =>
        simp only [List.map_cons, Token.relabel, skipSpaces_relabel]
        cases hs₁ : skipSpaces us with
        | nil => rfl
        | cons t₁ us₁ =>
          have hlt₁ := length_lt_of_skipSpaces hs₁
          obtain ⟨x₁, nameFirst, nameLast⟩ := t₁
          cases x₁ with
          | ident name =>
            simp only [List.map_cons, Token.relabel, skipSpaces_relabel]
            cases hs₂ : skipSpaces us₁ with
            | nil => rfl
            | cons t₂ us₂ =>
              have hlt₂ := length_lt_of_skipSpaces hs₂
              have hle₂ := length_skipSpaces_le us₂
              have hvalue := below.expr (show (skipSpaces us₂).length < (_ :: us).length by
                rw [List.length_cons]
                omega)
              rw [← skipSpaces_relabel] at hvalue
              obtain ⟨x₂, eqFirst, eqLast⟩ := t₂
              cases x₂ with
              | operator p =>
                cases p with
                | equal =>
                  simp only [List.map_cons, Token.relabel, hvalue]
                  cases hv : (Parse.expr o (skipSpaces us₂)).matched with
                  | none => rfl
                  | some m =>
                    obtain ⟨value, left⟩ := m
                    have present : value.isAbsent = false := (derives_expr hv).present
                    simp only [Option.map_some, relabelExpr, closeStmt_mapSpan present]
                    rfl
                | slash => rfl
              | _ => rfl
          | _ => rfl
      | _ => rfl
    | _ => rfl

theorem RelabelsBelow.exprStmt (below : RelabelsBelow o f g ts.length) :
    (exprStmt o (ts.map (Token.relabel f g))).matched =
      (exprStmt o ts).matched.map (relabelStmt f g) := by
  rw [matched_exprStmt, matched_exprStmt, below.exprAt]
  cases hv : (Parse.expr o ts).matched with
  | none => rfl
  | some m =>
    obtain ⟨value, left⟩ := m
    have present : value.isAbsent = false := (derives_expr hv).present
    simp only [Option.map_some, relabelExpr, closeStmt_mapSpan present]
    rw [value.span_mapSpan present]
    rfl

theorem RelabelsBelow.stmt (below : RelabelsBelow o f g ts.length) :
    (stmt o (ts.map (Token.relabel f g))).matched =
      (stmt o ts).matched.map (relabelStmt f g) := by
  rw [matched_stmt, matched_stmt, below.letStmt, below.exprStmt, Option.map_or]

theorem RelabelsBelow.stmtsAt (below : RelabelsBelow o f g ts.length) :
    (Parse.stmts o (ts.map (Token.relabel f g))).results =
        Stmt.mapSpanAll (Span.relabel f g) (Parse.stmts o ts).results ∧
      (Parse.stmts o (ts.map (Token.relabel f g))).left.val =
        (Parse.stmts o ts).left.val.map (Token.relabel f g) := by
  have hle := length_skipSpaces_le ts
  have hstmt := (below.mono hle).stmt
  rw [← skipSpaces_relabel] at hstmt
  cases hs : (Parse.stmt o (skipSpaces ts)).matched with
  | none =>
    rw [hs] at hstmt
    obtain ⟨hresults, hleft⟩ := stmts_of_unmatched hs
    obtain ⟨hresults', hleft'⟩ := stmts_of_unmatched hstmt
    rw [hresults, hleft, hresults', hleft']
    exact ⟨rfl, rfl⟩
  | some m =>
    obtain ⟨s, left⟩ := m
    rw [hs] at hstmt
    have hlt := Attempt.length_matched hs
    obtain ⟨hresults, hleft⟩ := stmts_of_matched hs
    obtain ⟨hresults', hleft'⟩ := stmts_of_matched hstmt
    obtain ⟨hmore, hrest⟩ := below.stmts left (by omega)
    rw [hresults, hleft, hresults', hleft', hmore, hrest]
    exact ⟨rfl, rfl⟩

end Relabel

theorem relabelsBelow (o : Options) (f g : Nat → Nat) (n : Nat) : RelabelsBelow o f g n := by
  induction n with
  | zero => exact ⟨fun h => absurd h (Nat.not_lt_zero _), fun _ h => absurd h (Nat.not_lt_zero _)⟩
  | succ n ih =>
    constructor
    · intro ts hlt
      exact (ih.mono (Nat.le_of_lt_succ hlt)).exprAt
    · intro ts hlt
      exact (ih.mono (Nat.le_of_lt_succ hlt)).stmtsAt

theorem stmt_relabel (o : Options) (f g : Nat → Nat) (ts : List Token) :
    (stmt o (ts.map (Token.relabel f g))).matched = (stmt o ts).matched.map (relabelStmt f g) :=
  (relabelsBelow o f g ts.length).stmt

/-- Statements at other positions are the same statements at other positions. -/
theorem stmts_relabel (o : Options) (f g : Nat → Nat) (ts : List Token) :
    (stmts o (ts.map (Token.relabel f g))).results =
        Stmt.mapSpanAll (Span.relabel f g) (stmts o ts).results ∧
      (stmts o (ts.map (Token.relabel f g))).left.val =
        (stmts o ts).left.val.map (Token.relabel f g) :=
  (relabelsBelow o f g ts.length).stmtsAt

end Parse

end LetLang
