import LetLang.Proofs.Numeral

/-!
# What is matched is derived

Whenever a production matches, its tree is derived by the grammar from the tokens it took. Alternatives
that were tried and given up leave no trace here, so every property of what the parser returns can be
proved by induction over derivations.

The recursion of the productions goes through shorter lists in two places, the expressions inside
another phrase and the statements of a block. `SoundBelow` holds what is known there.
-/
namespace LetLang.Parse

open Grammar

theorem spaces_skipSpaces (ts : List Token) : Spaces ts (skipSpaces ts) := by
  induction ts with
  | nil => exact .none []
  | cons t ts ih =>
    obtain ⟨x, first, last⟩ := t
    cases x with
    | space s => exact .more ih
    | _ => exact .none _

theorem spaces_of_skipSpaces {ts us : List Token} (h : skipSpaces ts = us) : Spaces ts us :=
  h ▸ spaces_skipSpaces ts

theorem ending_closeStmt (stop : Int) (ts : List Token) :
    Ending stop ts (closeStmt stop ts).1 (closeStmt stop ts).2 := by
  unfold closeStmt
  split
  next h => exact .semicolon (spaces_of_skipSpaces h)
  next => exact .none ts

theorem derives_fields {o : Options} (on : o.access = true) {target : Expr} {ts left : List Token}
    (h : Derives o (.access target) ts left) :
    Derives o (.access (fields target left).1) ts (fields target left).2 := by
  fun_induction fields target left with
  | case1 target _ _ name first last left ih => exact ih (.field on h)
  | case2 => exact h

/-- Expressions and statement lists are derived on every list of fewer than `n` tokens. -/
structure SoundBelow (o : Options) (n : Nat) : Prop where
  expr : ∀ {ts rest : List Token} {e : Expr}, ts.length < n →
    (expr o ts).matched = some (e, rest) → Derives o (.expr e) ts rest
  stmts : ∀ ts : List Token, ts.length < n →
    Derives o (.stmts (stmts o ts).results) ts (stmts o ts).left.val

theorem SoundBelow.mono {o : Options} {m n : Nat} (below : SoundBelow o n) (h : m ≤ n) :
    SoundBelow o m where
  expr hlt := below.expr (Nat.lt_of_lt_of_le hlt h)
  stmts ts hlt := below.stmts ts (Nat.lt_of_lt_of_le hlt h)

section Productions

variable {o : Options} {ts rest : List Token}

theorem SoundBelow.block (below : SoundBelow o ts.length) {e : Expr}
    (h : (block o ts).matched = some (e, rest)) : Derives o (.block e) ts rest := by
  rw [matched_block] at h
  split at h
  next first last ts =>
    split at h
    next hs =>
      cases h
      exact .block (below.stmts ts (by simp)) (spaces_of_skipSpaces hs)
    next => cases h
  next => cases h

theorem SoundBelow.primary (below : SoundBelow o ts.length) {e : Expr}
    (h : (primary o ts).matched = some (e, rest)) : Derives o (.primary e) ts rest := by
  cases ts with
  | nil =>
    rw [matched_primary_nil] at h
    cases h
  | cons t ts =>
    rw [matched_primary] at h
    obtain ⟨x, first, last⟩ := t
    simp only [Token.span] at h
    split at h
    next => cases h; exact .ident _ _ _ _
    next => exact .numeral (matched_number_iff.mp h)
    next => cases h; exact .trueLit _ _ _
    next => cases h; exact .falseLit _ _ _
    next => cases h; exact .quoted _ _ _ _ _
    next =>
      split at h
      next on => exact .braced on (below.block h)
      next => cases h
    next => cases h

theorem SoundBelow.access (below : SoundBelow o ts.length) {e : Expr}
    (h : (access o ts).matched = some (e, rest)) : Derives o (.access e) ts rest := by
  rw [matched_access] at h
  split at h
  next => cases h
  next target left hp =>
    have hd : Derives o (.access target) ts left := .target (below.primary hp)
    by_cases on : o.access = true
    · rw [if_pos on, Option.some.injEq] at h
      have hf := derives_fields on hd
      rw [h] at hf
      exact hf
    · rw [if_neg on] at h
      cases h
      exact hd

theorem SoundBelow.exprAt (below : SoundBelow o ts.length) {e : Expr}
    (h : (Parse.expr o ts).matched = some (e, rest)) : Derives o (.expr e) ts rest := by
  rw [matched_expr] at h
  split at h
  next => cases h
  next called left hc =>
    have callee := below.access hc
    have hleft := Attempt.length_matched hc
    split at h
    next ts₁ h₁ =>
      have h₁lt := length_lt_of_skipSpaces h₁
      have h₁le := length_skipSpaces_le ts₁
      split at h
      next => cases h; exact .bare callee
      next input left₂ hi =>
        have argument := below.expr (by omega) hi
        split at h
        next h₂ =>
          cases h
          exact .call callee (spaces_of_skipSpaces h₁) (spaces_skipSpaces ts₁) argument
            (spaces_of_skipSpaces h₂)
        next => cases h; exact .bare callee
    next => cases h; exact .bare callee

theorem SoundBelow.letStmt (below : SoundBelow o ts.length) {s : Stmt}
    (h : (letStmt o ts).matched = some (s, rest)) : Derives o (.letStmt s) ts rest := by
  rw [matched_letStmt] at h
  split at h
  next first last ts =>
    split at h
    next name nameFirst nameLast ts₁ h₁ =>
      split at h
      next ts₂ h₂ =>
        split at h
        next => cases h
        next value left hv =>
          cases h
          have h₁lt := length_lt_of_skipSpaces h₁
          have h₂lt := length_lt_of_skipSpaces h₂
          have h₃le := length_skipSpaces_le ts₂
          have bound := below.expr (by simp only [List.length_cons]; omega) hv
          exact .binding (spaces_of_skipSpaces h₁) (spaces_of_skipSpaces h₂)
            (spaces_skipSpaces ts₂) bound (ending_closeStmt _ left)
      next => cases h
    next => cases h
  next => cases h

theorem SoundBelow.exprStmt (below : SoundBelow o ts.length) {s : Stmt}
    (h : (exprStmt o ts).matched = some (s, rest)) : Derives o (.exprStmt s) ts rest := by
  rw [matched_exprStmt] at h
  split at h
  next => cases h
  next value left hv =>
    cases h
    exact .stated (below.exprAt hv) (ending_closeStmt _ left)

theorem SoundBelow.stmt (below : SoundBelow o ts.length) {s : Stmt}
    (h : (stmt o ts).matched = some (s, rest)) : Derives o (.stmt s) ts rest := by
  rw [matched_stmt, Option.or_eq_some_iff] at h
  rcases h with hl | ⟨-, he⟩
  · exact .letStmt (below.letStmt hl)
  · exact .exprStmt (below.exprStmt he)

theorem SoundBelow.stmtsAt (below : SoundBelow o ts.length) :
    Derives o (.stmts (Parse.stmts o ts).results) ts (Parse.stmts o ts).left.val := by
  have hle := length_skipSpaces_le ts
  cases hs : (Parse.stmt o (skipSpaces ts)).matched with
  | none =>
    obtain ⟨hresults, hleft⟩ := stmts_of_unmatched hs
    rw [hresults, hleft]
    exact .noStmt ts
  | some m =>
    obtain ⟨s, left⟩ := m
    have hlt := Attempt.length_matched hs
    obtain ⟨hresults, hleft⟩ := stmts_of_matched hs
    rw [hresults, hleft]
    exact .moreStmts (spaces_skipSpaces ts) ((below.mono hle).stmt hs)
      (below.stmts left (by omega))

end Productions

theorem soundBelow (o : Options) (n : Nat) : SoundBelow o n := by
  induction n with
  | zero => exact ⟨fun h => absurd h (Nat.not_lt_zero _), fun _ h => absurd h (Nat.not_lt_zero _)⟩
  | succ n ih =>
    constructor
    · intro ts rest e hlt h
      exact (ih.mono (Nat.le_of_lt_succ hlt)).exprAt h
    · intro ts hlt
      exact (ih.mono (Nat.le_of_lt_succ hlt)).stmtsAt

theorem derives_stmts (o : Options) (ts : List Token) :
    Derives o (.stmts (stmts o ts).results) ts (stmts o ts).left.val :=
  (soundBelow o ts.length).stmtsAt

theorem derives_expr {o : Options} {ts rest : List Token} {e : Expr}
    (h : (expr o ts).matched = some (e, rest)) : Derives o (.expr e) ts rest :=
  (soundBelow o ts.length).exprAt h

end LetLang.Parse
