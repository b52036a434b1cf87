import LetLang.Parse.Speculation
import LetLang.Proofs.Acceptance
import LetLang.Proofs.Extent

/-!
# Trying and reading

A production tried on a live cursor does what the production does on the tokens of the cursor: the same
notes, the same tree, and the cursor before the tokens that are left. So nothing that a trial does on
its copies is seen from outside, wherever in the recursion it is given up, and a cursor that was moved
was moved over the text of the tree.

Trials recur at cursors with less ahead, for the expressions inside another phrase and for the
statements of a block. `AgreesBelow` holds what is known there.
-/
namespace LetLang

theorem Cursor.Moves.ahead_le {c d : Cursor} (h : c.Moves d) : d.ahead ≤ c.ahead := by
  obtain ⟨ts, run⟩ := h
  have hle := run.tiles.le
  unfold ahead
  rw [run.source]
  omega

namespace Parse

open Cursor (Moves ahead_lt_of_next? moves_skipSpaces tokens_of_next?_none tokens_of_next?_some)

/-! ## Loops -/

theorem tryClose_agrees (stop : Int) (c : Cursor) :
    closeStmt stop c.tokens = ((tryClose stop c).1, (tryClose stop c).2.tokens) ∧
      c.Moves (tryClose stop c).2 := by
  unfold tryClose closeStmt Cursor.skipSemicolon Cursor.skipOnce
  simp only [← c.tokens_skipSpaces]
  cases hn : c.skipSpaces.2.next? with
  | none =>
    simp only [tokens_of_next?_none hn]
    exact ⟨trivial, .refl c⟩
  | some next =>
    obtain ⟨⟨x, first, last⟩, d⟩ := next
    simp only [tokens_of_next?_some hn]
    cases x with
    | punct p =>
      cases p with
      | semicolon => exact ⟨rfl, .of_next?_skipSpaces hn⟩
      | _ => exact ⟨rfl, .refl c⟩
    | _ => exact ⟨rfl, .refl c⟩

theorem tryDigits_agrees (value : UInt64) (last : Nat) (c : Cursor) :
    readDigits value last c.tokens =
        (tryDigits value last c).1.map (fun m => (m.1, m.2, (tryDigits value last c).2.tokens)) ∧
      c.Moves (tryDigits value last c).2 := by
  fun_induction tryDigits value last c with
  | case1 value last c d first last' copy h value' large =>
    rw [tokens_of_next?_some h, readDigits, if_pos large]
    exact ⟨rfl, .refl c⟩
  | case2 value last c d first last' copy h value' small ih =>
    rw [tokens_of_next?_some h, readDigits, if_neg small]
    exact ⟨ih.1, (Moves.of_next? h).trans ih.2⟩
  | case3 value last c other =>
    refine ⟨?_, .refl c⟩
    cases hn : c.next? with
    | none =>
      rw [tokens_of_next?_none hn]
      rfl
    | some next =>
      obtain ⟨⟨x, first, last'⟩, d⟩ := next
      rw [tokens_of_next?_some hn]
      cases x with
      | digit d => exact (other d first last' _ hn).elim
      | _ => rfl

theorem tryFields_agrees (target : Expr) (c : Cursor) :
    fields target c.tokens = ((tryFields target c).1, (tryFields target c).2.tokens) ∧
      c.Moves (tryFields target c).2 := by
  fun_induction tryFields target c with
  | case1 target c _ _ copy h name first last copy' h' ih =>
    rw [tokens_of_next?_some h, tokens_of_next?_some h', fields]
    exact ⟨ih.1, (Moves.of_next? h).trans ((Moves.of_next? h').trans ih.2)⟩
  | case2 target c first last copy h other =>
    have kept : fields target c.tokens = (target, c.tokens) := by
      rw [tokens_of_next?_some h]
      cases hn : copy.next? with
      | none =>
        rw [tokens_of_next?_none hn]
        rfl
      | some next =>
        obtain ⟨⟨x, first', last'⟩, d⟩ := next
        rw [tokens_of_next?_some hn]
        cases x with
        | ident name => exact (other name first' last' d hn).elim
        | _ => rfl
    rw [kept]
    exact ⟨rfl, .refl c⟩
  | case3 target c other =>
    have kept : fields target c.tokens = (target, c.tokens) := by
      cases hn : c.next? with
      | none =>
        rw [tokens_of_next?_none hn]
        rfl
      | some next =>
        obtain ⟨⟨x, first, last⟩, d⟩ := next
        rw [tokens_of_next?_some hn]
        cases x with
        | punct p =>
          cases p with
          | fullStop => exact (other first last d hn).elim
          | _ => rfl
        | _ => rfl
    rw [kept]
    exact ⟨rfl, .refl c⟩

/-! ## Productions -/

/-- A trial at `c` gives what the production gives on the tokens of `c`, and it keeps the live cursor
where nothing matches. -/
inductive Agrees {α : Type} (c : Cursor) : Reading (Option α) → Outcome α → Prop
  | keeps {notes : List Note} {log : Log} (noted : notes = log.toList) :
    Agrees c ⟨notes, none, c⟩ ⟨log, none⟩
  | moves {notes : List Note} {log : Log} (noted : notes = log.toList) (a : α) {d : Cursor}
    (move : c.Moves d) : Agrees c ⟨notes, some a, d⟩ ⟨log, some (a, d.tokens)⟩

theorem Agrees.found {α : Type} {c d : Cursor} (a : α) (move : c.Moves d) :
    Agrees c ⟨[], some a, d⟩ ⟨.empty, some (a, d.tokens)⟩ :=
  .moves Log.toList_empty.symm a move

theorem tryNumber_agrees (c : Cursor) : Agrees c (tryNumber c).reading (number c.tokens).outcome := by
  rw [tryNumber_reading, number_outcome]
  cases hn : c.next? with
  | none =>
    simp only [tokens_of_next?_none hn]
    exact .keeps rfl
  | some next =>
    obtain ⟨⟨x, first, last⟩, copy⟩ := next
    simp only [tokens_of_next?_some hn]
    cases x with
    | digit d =>
      obtain ⟨digits, move⟩ := tryDigits_agrees (UInt64.ofNat d.val) last copy
      simp only [digits]
      rcases (tryDigits (UInt64.ofNat d.val) last copy).1 with _ | ⟨value, last'⟩
      · exact .keeps rfl
      · exact .found _ ((Moves.of_next? hn).trans move)
    | _ => exact .keeps rfl

/-- Trying a production again and again gives what repeating it on the tokens gives. -/
structure AgreesAll {α : Type} {c : Cursor} (t : Trials α c) (r : Repeated α c.tokens) : Prop where
  notes : t.notes = r.log.toList
  results : t.results = r.results
  left : t.cursor.tokens = r.left.val
  move : c.Moves t.cursor

/-- Trials of expressions and of statement lists agree at every cursor with less than `n` ahead. -/
structure AgreesBelow (o : Options) (n : Nat) : Prop where
  expr : ∀ {c : Cursor}, c.ahead < n → Agrees c (tryExpr o c).reading (Parse.expr o c.tokens).outcome
  stmts : ∀ {c : Cursor}, c.ahead < n → AgreesAll (tryStmts o c) (Parse.stmts o c.tokens)

theorem AgreesBelow.mono {o : Options} {m n : Nat} (below : AgreesBelow o n) (h : m ≤ n) :
    AgreesBelow o m :=
  ⟨fun hlt => below.expr (Nat.lt_of_lt_of_le hlt h),
    fun hlt => below.stmts (Nat.lt_of_lt_of_le hlt h)⟩

section Productions

variable {o : Options} {c : Cursor}

theorem AgreesBelow.block (below : AgreesBelow o c.ahead) :
    Agrees c (tryBlock o c).reading (Parse.block o c.tokens).outcome := by
  rw [tryBlock_reading, block_outcome]
  cases hn : c.next? with
  | none =>
    simp only [tokens_of_next?_none hn]
    exact .keeps rfl
  | some next =>
    obtain ⟨⟨x, first, last⟩, copy⟩ := next
    simp only [tokens_of_next?_some hn]
    cases x with
    | bracket b =>
      obtain ⟨shape, isOpen⟩ := b
      cases shape <;> cases isOpen <;> try exact .keeps rfl
      obtain ⟨notes, results, left, move⟩ := below.stmts (ahead_lt_of_next? hn)
      simp only [notes, results, ← left, ← Cursor.tokens_skipSpaces]
      cases hc : (tryStmts o copy).cursor.skipSpaces.2.next? with
      | none =>
        simp only [tokens_of_next?_none hc]
        exact .keeps (by simp)
      | some closing =>
        obtain ⟨⟨x, first', last'⟩, d⟩ := closing
        have inside : c.Moves d := (Moves.of_next? hn).trans (move.trans (.of_next?_skipSpaces hc))
        simp only [tokens_of_next?_some hc]
        cases x with
        | bracket b =>
          obtain ⟨shape, isOpen⟩ := b
          cases shape <;> cases isOpen <;> try exact .keeps (by simp)
          exact .moves rfl _ inside
        | _ => exact .keeps (by simp)
    | _ => exact .keeps rfl

theorem AgreesBelow.primary (below : AgreesBelow o c.ahead) :
    Agrees c (tryPrimary o c).reading (Parse.primary o c.tokens).outcome := by
  have hnumber := tryNumber_agrees c
  have hblock := below.block
  rw [tryPrimary_reading]
  cases hn : c.next? with
  | none =>
    rw [tokens_of_next?_none hn, primary_nil]
    exact .keeps rfl
  | some next =>
    obtain ⟨⟨x, first, last⟩, d⟩ := next
    have move : c.Moves d := .of_next? hn
    rw [tokens_of_next?_some hn] at hnumber hblock ⊢
    rw [primary_outcome]
    cases x with
    | ident name => exact .found _ move
    | digit d => exact hnumber
    | quoted q text => exact .found _ move
    | keyword k =>
      cases k with
      | trueKw => exact .found _ move
      | falseKw => exact .found _ move
      | _ => exact .keeps rfl
    | bracket b =>
      obtain ⟨shape, isOpen⟩ := b
      cases shape <;> cases isOpen <;> try exact .keeps rfl
      by_cases on : o.blocks = true
      · simp only [on, ↓reduceIte]
        exact hblock
      · simp only [on, Bool.false_eq_true, ↓reduceIte]
        exact .keeps rfl
    | _ => exact .keeps rfl

theorem AgreesBelow.access (below : AgreesBelow o c.ahead) :
    Agrees c (tryAccess o c).reading (Parse.access o c.tokens).outcome := by
  rw [tryAccess_reading, access_outcome]
  have hprimary := below.primary
  generalize (tryPrimary o c).reading = read, (Parse.primary o c.tokens).outcome = out
    at hprimary ⊢
  cases hprimary with
  | keeps noted => exact .keeps noted
  | @moves _ _ noted target d move =>
    by_cases on : o.access = true
    · obtain ⟨taken, more⟩ := tryFields_agrees target d
      simp only [on, ↓reduceIte, taken]
      exact .moves noted _ (move.trans more)
    · simp only [on, Bool.false_eq_true, ↓reduceIte]
      exact .moves noted target move

theorem AgreesBelow.exprAt (below : AgreesBelow o c.ahead) :
    Agrees c (tryExpr o c).reading (Parse.expr o c.tokens).outcome := by
  rw [tryExpr_eq, expr_eq, tryCall_reading, call_outcome]
  have haccess := below.access
  generalize (tryAccess o c).reading = read, (Parse.access o c.tokens).outcome = out
    at haccess ⊢
  cases haccess with
  | keeps noted => exact .keeps noted
  | @moves _ _ noted called d move =>
    simp only [← Cursor.tokens_skipSpaces]
    cases hn : d.skipSpaces.2.next? with
    | none =>
      simp only [tokens_of_next?_none hn]
      exact .moves noted called move
    | some next =>
      obtain ⟨⟨x, first, last⟩, inner⟩ := next
      simp only [tokens_of_next?_some hn]
      cases x with
      | bracket b =>
        obtain ⟨shape, isOpen⟩ := b
        cases shape <;> cases isOpen <;> try exact .moves noted called move
        have before : c.Moves d.skipSpaces.2 := move.trans (moves_skipSpaces d)
        have within : c.Moves inner.skipSpaces.2 :=
          before.trans ((Moves.of_next? hn).trans (moves_skipSpaces inner))
        have less : inner.skipSpaces.2.ahead < c.ahead :=
          calc inner.skipSpaces.2.ahead
            _ ≤ inner.ahead := inner.ahead_skipSpaces_le
            _ < d.skipSpaces.2.ahead := ahead_lt_of_next? hn
            _ ≤ c.ahead := before.ahead_le
        have hinput := below.expr less
        simp only
        rw [← inner.tokens_skipSpaces]
        generalize (tryExpr o inner.skipSpaces.2).reading = read,
          (Parse.expr o inner.skipSpaces.2.tokens).outcome = out at hinput ⊢
        cases hinput with
        | keeps noted' => exact .moves (by simp [noted, noted']) called move
        | @moves _ _ noted' input e move' =>
          simp only [← Cursor.tokens_skipSpaces]
          cases hc : e.skipSpaces.2.next? with
          | none =>
            simp only [tokens_of_next?_none hc]
            exact .moves (by simp [noted, noted']) called move
          | some closing =>
            obtain ⟨⟨x, first', last'⟩, f⟩ := closing
            simp only [tokens_of_next?_some hc]
            cases x with
            | bracket b =>
              obtain ⟨shape, isOpen⟩ := b
              cases shape <;> cases isOpen <;>
                try exact .moves (by simp [noted, noted']) called move
              exact .moves (by simp [noted, noted']) _
                (within.trans (move'.trans (.of_next?_skipSpaces hc)))
            | _ => exact .moves (by simp [noted, noted']) called move
      | _ => exact .moves noted called move

theorem AgreesBelow.letStmt (below : AgreesBelow o c.ahead) :
    Agrees c (tryLet o c).reading (Parse.letStmt o c.tokens).outcome := by
  rw [tryLet_reading, letStmt_outcome]
  cases hn : c.next? with
  | none =>
    simp only [tokens_of_next?_none hn]
    exact .keeps rfl
  | some next =>
    obtain ⟨⟨x, first, last⟩, copy⟩ := next
    simp only [tokens_of_next?_some hn]
    cases x with
    | keyword k =>
      cases k <;> try exact .keeps rfl
      simp only [← Cursor.tokens_skipSpaces]
      cases hn₁ : copy.skipSpaces.2.next? with
      | none =>
        simp only [tokens_of_next?_none hn₁]
        exact .keeps rfl
      | some next =>
        obtain ⟨⟨x, nameFirst, nameLast⟩, copy₁⟩ := next
        simp only [tokens_of_next?_some hn₁]
        cases x with
        | ident name =>
          simp only [← Cursor.tokens_skipSpaces]
          cases hn₂ : copy₁.skipSpaces.2.next? with
          | none =>
            simp only [tokens_of_next?_none hn₂]
            exact .keeps rfl
          | some next =>
            obtain ⟨⟨x, eqFirst, eqLast⟩, copy₂⟩ := next
            simp only [tokens_of_next?_some hn₂]
            cases x with
            | operator p =>
              cases p with
              | equal =>
                have behind : copy.Moves copy₂.skipSpaces.2 := (Moves.of_next?_skipSpaces hn₁).trans
                  ((Moves.of_next?_skipSpaces hn₂).trans (moves_skipSpaces copy₂))
                have within : c.Moves copy₂.skipSpaces.2 := (Moves.of_next? hn).trans behind
                have less : copy₂.skipSpaces.2.ahead < c.ahead :=
                  Nat.lt_of_le_of_lt behind.ahead_le (ahead_lt_of_next? hn)
                have hvalue := below.expr less
                simp only
                rw [← copy₂.tokens_skipSpaces]
                generalize (tryExpr o copy₂.skipSpaces.2).reading = read,
                  (Parse.expr o copy₂.skipSpaces.2.tokens).outcome = out at hvalue ⊢
                cases hvalue with
                | keeps noted => exact .keeps (by simp [noted])
                | @moves _ _ noted value e move =>
                  obtain ⟨closed, more⟩ := tryClose_agrees value.span.stop e
                  simp only [closed]
                  exact .moves noted _ (within.trans (move.trans more))
              | slash => exact .keeps rfl
            | _ => exact .keeps rfl
        | _ => exact .keeps rfl
    | _ => exact .keeps rfl

theorem AgreesBelow.exprStmt (below : AgreesBelow o c.ahead) :
    Agrees c (tryExprStmt o c).reading (Parse.exprStmt o c.tokens).outcome := by
  rw [tryExprStmt_reading, exprStmt_outcome]
  have hexpr := below.exprAt
  generalize (tryExpr o c).reading = read, (Parse.expr o c.tokens).outcome = out at hexpr ⊢
  cases hexpr with
  | keeps noted => exact .keeps noted
  | @moves _ _ noted value d move =>
    obtain ⟨closed, more⟩ := tryClose_agrees value.span.stop d
    simp only [closed]
    exact .moves noted _ (move.trans more)

theorem AgreesBelow.stmt (below : AgreesBelow o c.ahead) :
    Agrees c (tryStmt o c).reading (Parse.stmt o c.tokens).outcome := by
  rw [tryStmt_reading, stmt_outcome]
  have hlet := below.letStmt
  have hexpr := below.exprStmt
  generalize (tryLet o c).reading = read, (Parse.letStmt o c.tokens).outcome = out at hlet ⊢
  cases hlet with
  | moves noted s move => exact .moves noted s move
  | @keeps _ _ noted =>
    simp only
    generalize (tryExprStmt o c).reading = read, (Parse.exprStmt o c.tokens).outcome = out at hexpr ⊢
    cases hexpr with
    | keeps noted' => exact .keeps (by simp [noted, noted'])
    | moves noted' s move => exact .moves (by simp [noted, noted']) s move

theorem AgreesBelow.stmtsAt (below : AgreesBelow o c.ahead) :
    AgreesAll (tryStmts o c) (Parse.stmts o c.tokens) := by
  have hstmt := (below.mono c.ahead_skipSpaces_le).stmt
  have progress := (tryStmt o c.skipSpaces.2).ahead_lt
  change (tryStmt o c.skipSpaces.2).reading.result.isSome →
    (tryStmt o c.skipSpaces.2).reading.cursor.ahead < _ at progress
  rw [c.tokens_skipSpaces] at hstmt
  generalize hr : (tryStmt o c.skipSpaces.2).reading = read,
    hs : (Parse.stmt o (skipSpaces c.tokens)).outcome = out at hstmt progress
  cases hstmt with
  | keeps noted =>
    obtain ⟨notes, results, cursor⟩ := tryStmts_of_none o c hr
    obtain ⟨log, results', left⟩ := stmts_of_none hs
    refine ⟨?_, ?_, ?_, ?_⟩
    · rw [notes, log, noted]
    · rw [results, results']
    · rw [cursor, left]
    · rw [cursor]
      exact .refl c
  | @moves _ _ noted s d move =>
    obtain ⟨notes, results, cursor⟩ := tryStmts_of_some o c hr
    obtain ⟨log, results', left⟩ := stmts_of_some hs
    have others := below.stmts (Nat.lt_of_lt_of_le (progress rfl) c.ahead_skipSpaces_le)
    refine ⟨?_, ?_, ?_, ?_⟩
    · rw [notes, log, noted, others.notes, Log.toList_append]
    · rw [results, results', others.results]
    · rw [cursor, left, others.left]
    · rw [cursor]
      exact (moves_skipSpaces c).trans (move.trans others.move)

end Productions

theorem agreesBelow (o : Options) (n : Nat) : AgreesBelow o n := by
  induction n with
  | zero => exact ⟨fun h => absurd h (Nat.not_lt_zero _), fun h => absurd h (Nat.not_lt_zero _)⟩
  | succ n ih =>
    constructor
    · intro c hlt
      exact (ih.mono (Nat.le_of_lt_succ hlt)).exprAt
    · intro c hlt
      exact (ih.mono (Nat.le_of_lt_succ hlt)).stmtsAt

/-! ## Whole trials -/

theorem Agrees.map {α β : Type} {c : Cursor} {t : Reading (Option α)} {out : Outcome α} (f : α → β)
    (h : Agrees c t out) : Agrees c ⟨t.notes, t.result.map f, t.cursor⟩ (out.map f) := by
  cases h with
  | keeps noted => exact .keeps noted
  | moves noted a move => exact .moves noted (f a) move

theorem Production.tryAt_agrees (o : Options) (p : Production) (c : Cursor) :
    Agrees c (p.tryAt o c) (p.outcome o c.tokens) := by
  have below := agreesBelow o c.ahead
  cases p with
  | stmt => exact below.stmt.map _
  | letStmt => exact below.letStmt.map _
  | exprStmt => exact below.exprStmt.map _
  | expr => exact below.exprAt.map _
  | call => exact (tryExpr_eq o c ▸ expr_eq o c.tokens ▸ below.exprAt).map _
  | access => exact below.access.map _
  | primary => exact below.primary.map _
  | number => exact (tryNumber_agrees c).map _
  | block => exact below.block.map _

/-- Trying a production on a live cursor and reading with it from the tokens of the cursor is the
same: what is noted, what is given and where the cursor is afterwards. -/
theorem Production.tryAt_eq_read (o : Options) (p : Production) (c : Cursor) :
    p.tryAt o c = p.read o c := by
  have h := p.tryAt_agrees o c
  unfold Production.read readAt
  generalize p.tryAt o c = tried, p.outcome o c.tokens = out at h ⊢
  cases h with
  | keeps noted => rw [noted]
  | moves noted n move => simp only [noted, move.before]

/-- Whatever a production does on its copies and wherever it is given up, the live cursor stays if
nothing matches. If something does, the cursor moves over exactly the text of the tree. This holds at
every position, whether or not tokens were read up to there. -/
theorem tryAt_keeps_or_covers (o : Options) (p : Production) (c : Cursor) :
    ((p.tryAt o c).result = none ∧ (p.tryAt o c).cursor = c) ∨
      ∃ n s, (p.tryAt o c).result = some n ∧ n.span? = some s ∧
        (p.tryAt o c).cursor.source = c.source ∧
        c.pos < (p.tryAt o c).cursor.pos ∧ (p.tryAt o c).cursor.pos ≤ c.source.length ∧
        s.start = c.pos ∧ s.stop + 1 = (p.tryAt o c).cursor.pos := by
  have agrees := p.tryAt_agrees o c
  generalize ht : p.tryAt o c = tried, ho : p.outcome o c.tokens = out at agrees ⊢
  cases agrees with
  | keeps => exact .inl ⟨rfl, rfl⟩
  | moves _ n move =>
    have covers := p.covers (congrArg Outcome.result ho)
    rw [move.before] at covers
    obtain ⟨s, hs, hlt, hle, hstart, hstop⟩ := covers
    exact .inr ⟨n, s, rfl, hs, move.source, hlt, hle, hstart, hstop⟩

theorem tryClose_eq_closeStmtAt (stop : Int) (c : Cursor) : tryClose stop c = closeStmtAt stop c := by
  obtain ⟨closed, move⟩ := tryClose_agrees stop c
  unfold closeStmtAt
  simp only [closed, move.before]

/-- A program is read by trials as it is read from the tokens. -/
theorem tryProgram_eq_readProgram (o : Options) (c : Cursor) : tryProgram o c = readProgram o c := by
  have all := (agreesBelow o c.ahead).stmtsAt
  have hstop : c.before (skipSpaces (stmts o c.tokens).left.val) =
      (tryStmts o c).cursor.skipSpaces.2 := by
    rw [← all.left, ← Cursor.tokens_skipSpaces]
    exact (all.move.trans (moves_skipSpaces _)).before
  unfold tryProgram readProgram
  simp only [all.notes, all.results, hstop]

end Parse

end LetLang
