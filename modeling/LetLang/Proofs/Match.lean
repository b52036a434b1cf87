import LetLang.Parse.Production

/-!
# What the productions match

The equations of the productions without the notes they make: each says which tree a production gives
and which tokens it leaves. Statements are read one after another until none matches.
-/
namespace LetLang.Parse

/-- The tree of an attempt and the tokens it leaves. -/
def Attempt.matched {α : Type} {ts : List Token} (a : Attempt α ts) : Option (α × List Token) :=
  a.outcome.result

theorem Attempt.length_matched {α : Type} {ts left : List Token} {a : Attempt α ts} {x : α}
    (h : a.matched = some (x, left)) : left.length < ts.length := by
  obtain ⟨⟨y, rest, hlt⟩, -, he⟩ := Option.map_eq_some_iff.mp h
  cases he
  exact hlt

/-! ## Spaces -/

theorem skipSpaces_of_space {t : Token} (ht : t.lexeme.isSpace = true) (ts : List Token) :
    skipSpaces (t :: ts) = skipSpaces ts := by
  rw [skipSpaces, List.dropWhile_cons_of_pos (by exact ht), skipSpaces]

theorem skipSpaces_cons {t : Token} (ht : t.lexeme.isSpace = false) (ts : List Token) :
    skipSpaces (t :: ts) = t :: ts := by
  rw [skipSpaces, List.dropWhile_cons_of_neg]
  simp [ht]

/-! ## Productions -/

theorem matched_stmt (o : Options) (ts : List Token) :
    (stmt o ts).matched = (letStmt o ts).matched.or (exprStmt o ts).matched := by
  rw [Attempt.matched, stmt_outcome, Attempt.matched]
  rcases (letStmt o ts).outcome with ⟨log, _ | m⟩
  · rfl
  · rfl

theorem matched_letStmt (o : Options) (ts : List Token) :
    (letStmt o ts).matched =
      match ts with
      | ⟨.keyword .letKw, first, _⟩ :: ts =>
        match skipSpaces ts with
        | ⟨.ident name, nameFirst, nameLast⟩ :: ts₁ =>
          match skipSpaces ts₁ with
          | ⟨.operator .equal, _, _⟩ :: ts₂ =>
            match (expr o (skipSpaces ts₂)).matched with
            | none => none
            | some (value, left) =>
              some (
                .binding (some ⟨Text.ofChars name, ⟨nameFirst, nameLast⟩⟩) value
                  ⟨first, (closeStmt value.span.stop left).1⟩,
                (closeStmt value.span.stop left).2)
          | _ => none
        | _ => none
      | _ => none := by
  rw [Attempt.matched, letStmt_outcome]
  cases ts with
  | nil => rfl
  | cons t ts =>
    obtain ⟨x, first, last⟩ := t
    cases x with
    | keyword k =>
      cases k with
      | letKw =>
        cases h₁ : skipSpaces ts with
        | nil => simp only [h₁]
        | cons t₁ ts₁ =>
          obtain ⟨x₁, nameFirst, nameLast⟩ := t₁
          cases x₁ with
          | ident name =>
            simp only [h₁]
            cases h₂ : skipSpaces ts₁ with
            | nil => rfl
            | cons t₂ ts₂ =>
              obtain ⟨x₂, eqFirst, eqLast⟩ := t₂
              cases x₂ with
              | operator p =>
                cases p with
                | equal =>
                  simp only [Attempt.matched]
                  rcases (expr o (skipSpaces ts₂)).outcome with ⟨log, _ | ⟨value, left⟩⟩
                  · rfl
                  · rfl
                | slash => rfl
              | _ => rfl
          | _ => simp only [h₁]
      | _ => rfl
    | _ => rfl

theorem matched_exprStmt (o : Options) (ts : List Token) :
    (exprStmt o ts).matched =
      match (expr o ts).matched with
      | none => none
      | some (value, left) =>
        some (.stated value ⟨value.span.start, (closeStmt value.span.stop left).1⟩,
          (closeStmt value.span.stop left).2) := by
  rw [Attempt.matched, exprStmt_outcome, Attempt.matched]
  rcases (expr o ts).outcome with ⟨log, _ | ⟨value, left⟩⟩
  · rfl
  · rfl

theorem matched_expr (o : Options) (ts : List Token) :
    (expr o ts).matched =
      match (access o ts).matched with
      | none => none
      | some (called, left) =>
        match skipSpaces left with
        | ⟨.bracket ⟨.paren, true⟩, _, _⟩ :: ts₁ =>
          match (expr o (skipSpaces ts₁)).matched with
          | none => some (called, left)
          | some (input, left₂) =>
            match skipSpaces left₂ with
            | ⟨.bracket ⟨.paren, false⟩, _, last⟩ :: rest =>
              some (.call called input ⟨called.span.start, last⟩, rest)
            | _ => some (called, left)
        | _ => some (called, left) := by
  rw [expr_eq, Attempt.matched, call_outcome, Attempt.matched]
  rcases (access o ts).outcome with ⟨log, _ | ⟨called, left⟩⟩
  · rfl
  · simp only
    cases h₁ : skipSpaces left with
    | nil => rfl
    | cons t₁ ts₁ =>
      obtain ⟨x₁, first, last⟩ := t₁
      cases x₁ with
      | bracket b =>
        obtain ⟨shape, isOpen⟩ := b
        cases shape <;> cases isOpen <;> try rfl
        simp only [Attempt.matched]
        rcases (expr o (skipSpaces ts₁)).outcome with ⟨more, _ | ⟨input, left₂⟩⟩
        · rfl
        · simp only
          cases h₂ : skipSpaces left₂ with
          | nil => rfl
          | cons t₂ rest =>
            obtain ⟨x₂, first', last'⟩ := t₂
            cases x₂ with
            | bracket b =>
              obtain ⟨shape, isOpen⟩ := b
              cases shape <;> cases isOpen <;> rfl
            | _ => rfl
      | _ => rfl

theorem matched_access (o : Options) (ts : List Token) :
    (access o ts).matched =
      match (primary o ts).matched with
      | none => none
      | some (target, left) => some (if o.access then fields target left else (target, left)) := by
  rw [Attempt.matched, access_outcome, Attempt.matched]
  rcases (primary o ts).outcome with ⟨log, _ | ⟨target, left⟩⟩
  · rfl
  · rfl

theorem matched_primary_nil (o : Options) : (primary o []).matched = none := by
  rw [Attempt.matched, primary_nil]

theorem matched_primary (o : Options) (t : Token) (ts : List Token) :
    (primary o (t :: ts)).matched =
      match t.lexeme with
      | .ident name => some (.ident ⟨Text.ofChars name, t.span⟩, ts)
      | .digit _ => (number (t :: ts)).matched
      | .keyword .trueKw => some (.bool true t.span, ts)
      | .keyword .falseKw => some (.bool false t.span, ts)
      | .quoted q text => some (.string (Text.ofChars text) (some q.sourceChar) t.span, ts)
      | .bracket ⟨.curly, true⟩ => if o.blocks then (block o (t :: ts)).matched else none
      | _ => none := by
  rw [Attempt.matched, primary_outcome]
  cases t.lexeme with
  | keyword k => cases k <;> rfl
  | bracket b =>
    rcases b with ⟨shape, isOpen⟩
    cases shape <;> cases isOpen <;> try rfl
    cases o.blocks <;> rfl
  | _ => rfl

theorem matched_block (o : Options) (ts : List Token) :
    (block o ts).matched =
      match ts with
      | ⟨.bracket ⟨.curly, true⟩, first, _⟩ :: ts =>
        match skipSpaces (stmts o ts).left.val with
        | ⟨.bracket ⟨.curly, false⟩, _, last⟩ :: rest =>
          some (.block (stmts o ts).results ⟨first, last⟩, rest)
        | _ => none
      | _ => none := by
  rw [Attempt.matched, block_outcome]
  cases ts with
  | nil => rfl
  | cons t ts =>
    obtain ⟨x, first, last⟩ := t
    cases x with
    | bracket b =>
      obtain ⟨shape, isOpen⟩ := b
      cases shape <;> cases isOpen <;> try rfl
      simp only
      cases h : skipSpaces (stmts o ts).left.val with
      | nil => rfl
      | cons t₁ rest =>
        obtain ⟨x₁, first', last'⟩ := t₁
        cases x₁ with
        | bracket b =>
          obtain ⟨shape, isOpen⟩ := b
          cases shape <;> cases isOpen <;> rfl
        | _ => rfl
    | _ => rfl

theorem stmts_of_unmatched {o : Options} {ts : List Token}
    (h : (stmt o (skipSpaces ts)).matched = none) :
    (stmts o ts).results = [] ∧ (stmts o ts).left.val = ts := by
  have ho : (stmt o (skipSpaces ts)).outcome = ⟨(stmt o (skipSpaces ts)).outcome.log, none⟩ := by
    rw [← h]
    rfl
  exact (stmts_of_none ho).2

theorem stmts_of_matched {o : Options} {ts left : List Token} {s : Stmt}
    (h : (stmt o (skipSpaces ts)).matched = some (s, left)) :
    (stmts o ts).results = s :: (stmts o left).results ∧
      (stmts o ts).left.val = (stmts o left).left.val := by
  have ho : (stmt o (skipSpaces ts)).outcome =
      ⟨(stmt o (skipSpaces ts)).outcome.log, some (s, left)⟩ := by
    rw [← h]
    rfl
  exact (stmts_of_some ho).2

/-- The statements end where no further one matches. -/
theorem matched_stmt_after_stmts (o : Options) (ts : List Token) :
    (stmt o (skipSpaces (stmts o ts).left.val)).matched = none := by
  cases hs : (stmt o (skipSpaces ts)).matched with
  | none =>
    rw [(stmts_of_unmatched hs).2]
    exact hs
  | some m =>
    obtain ⟨s, left⟩ := m
    rw [(stmts_of_matched hs).2]
    exact matched_stmt_after_stmts o left
termination_by ts.length
decreasing_by
  have hlt := Attempt.length_matched hs
  have hle := length_skipSpaces_le ts
  omega

end LetLang.Parse
