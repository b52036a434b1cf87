import LetLang.Proofs.Agreement
import LetLang.Proofs.Lossless

/-!
# Where spaces count

Beside a full stop and between two digits it matters whether there are spaces. Everywhere else they can
be put in, left out or exchanged for others, and a source is parsed as the same program.

Two sources whose tokens differ in such spaces only are read side by side. Both readings pass over their
spaces at the same places, and after every token that one of them takes, the other has taken the same
and what is left of the two differs in such spaces only. This also holds for a reading that is given up,
so the two give up alike.
-/
namespace LetLang

open Grammar
open Parse (Options skipSpaces)

/-! ## Spaces that count -/

/-- Whether spaces between two lexemes count; `none` stands for the start or the end of the tokens. -/
def spacesCount : (before after : Option Lexeme) → Bool
  | some (.punct .fullStop), _ => true
  | _, some (.punct .fullStop) => true
  | some (.digit _), some (.digit _) => true
  | _, _ => false

theorem spacesCount_fullStop (before : Option Lexeme) :
    spacesCount before (some (.punct .fullStop)) = true := by
  unfold spacesCount
  split <;> simp_all

/-- The mark for spaces between two lexemes. There is none if there are no spaces, or if they do not
count. -/
def spaceMark (spaced : Bool) (before after : Option Lexeme) : List (Option Lexeme) :=
  if spaced && spacesCount before after then [none] else []

/-- The lexemes without their spaces, and with a mark for each run of spaces that counts. `before` is
the last lexeme that is no space, `spaced` says whether spaces have been passed since. -/
def condense : (before : Option Lexeme) → (spaced : Bool) → List Lexeme → List (Option Lexeme)
  | before, spaced, [] => spaceMark spaced before none
  | before, spaced, x :: xs =>
    if x.isSpace then condense before true xs
    else spaceMark spaced before (some x) ++ some x :: condense (some x) false xs

/-- The kinds of the tokens of a source, condensed. -/
def condensedKinds (source : Source) : List (Option Kind) :=
  (condense none false ((Cursor.start source).tokens.map Token.lexeme)).map
    (Option.map Kind.ofLexeme)

/-- What tokens that do not begin with a space are condensed to. -/
def condenseSolid : List Token → List (Option Lexeme)
  | [] => []
  | t :: ts => some t.lexeme :: condense (some t.lexeme) false (ts.map Token.lexeme)

/-- Whether the tokens begin with a space. -/
def startsWithSpace (ts : List Token) : Bool :=
  (headLexeme ts).any Lexeme.isSpace

theorem skipSpaces_of_startsWithSpace {ts : List Token} (h : startsWithSpace ts = false) :
    skipSpaces ts = ts :=
  skipSpaces_of_head fun x hx => by simpa [startsWithSpace, hx] using h

theorem condense_eq (before : Option Lexeme) (passed : Bool) (ts : List Token) :
    condense before passed (ts.map Token.lexeme) =
      spaceMark (passed || startsWithSpace ts) before (headLexeme (skipSpaces ts)) ++
        condenseSolid (skipSpaces ts) := by
  induction ts generalizing passed with
  | nil => simp [condense, startsWithSpace, condenseSolid, headLexeme, skipSpaces]
  | cons t ts ih =>
    by_cases ht : t.lexeme.isSpace = true
    · have hspaced : startsWithSpace (t :: ts) = true := ht
      rw [List.map_cons, condense, if_pos ht, ih, Parse.skipSpaces_of_space ht, hspaced,
        Bool.true_or, Bool.or_true]
    · rw [Bool.not_eq_true] at ht
      have hspaced : startsWithSpace (t :: ts) = false := ht
      rw [List.map_cons, condense, ht, Parse.skipSpaces_cons ht, hspaced, Bool.or_false]
      rfl

theorem spaceMark_cases (spaced : Bool) (before after : Option Lexeme) :
    spaceMark spaced before after = [] ∨ spaceMark spaced before after = [none] := by
  unfold spaceMark
  split
  · exact .inr rfl
  · exact .inl rfl

/-- A mark stands before lexemes only, so it can be told from them. -/
theorem spaceMark_append_inj {b b' : Bool} {x x' y y' : Option Lexeme} {ts us : List Token}
    (h : spaceMark b x y ++ condenseSolid ts = spaceMark b' x' y' ++ condenseSolid us) :
    spaceMark b x y = spaceMark b' x' y' ∧ condenseSolid ts = condenseSolid us := by
  have hne (ts : List Token) (ys : List (Option Lexeme)) : condenseSolid ts ≠ none :: ys := by
    cases ts <;> exact nofun
  rcases spaceMark_cases b x y with hm | hm <;> rcases spaceMark_cases b' x' y' with hm' | hm' <;>
    rw [hm, hm'] at h ⊢
  · exact ⟨rfl, h⟩
  · exact absurd h (hne _ _)
  · exact absurd h.symm (hne _ _)
  · exact ⟨rfl, List.cons.inj h |>.2⟩

/-! ## Tokens with other spaces -/

/-- Two lists of tokens behind `before` that differ in spaces that do not count. -/
def Respaced (before : Option Lexeme) (ts us : List Token) : Prop :=
  condense before false (ts.map Token.lexeme) = condense before false (us.map Token.lexeme)

/-- Two lists of tokens that do not begin with a space and are respaced behind their first token. -/
inductive Level : List Token → List Token → Prop
  | done : Level [] []
  | token {x : Lexeme} {first last first' last' : Nat} {ts us : List Token}
      (rest : Respaced (some x) ts us) : Level (⟨x, first, last⟩ :: ts) (⟨x, first', last'⟩ :: us)

section Respaced

variable {before : Option Lexeme} {ts us : List Token} {x : Lexeme}

theorem Respaced.symm (h : Respaced before ts us) : Respaced before us ts :=
  Eq.symm h

theorem Level.headLexeme_eq (h : Level ts us) : headLexeme ts = headLexeme us := by
  cases h <;> rfl

theorem Level.eq_nil_iff (h : Level ts us) : ts = [] ↔ us = [] := by
  cases h with
  | done => exact Iff.rfl
  | token => exact iff_of_false (List.cons_ne_nil _ _) (List.cons_ne_nil _ _)

theorem level_of_condenseSolid (h : condenseSolid ts = condenseSolid us) : Level ts us := by
  cases ts with
  | nil =>
    cases us with
    | nil => exact .done
    | cons u us => cases h
  | cons t ts =>
    cases us with
    | nil => cases h
    | cons u us =>
      obtain ⟨x, first, last⟩ := t
      obtain ⟨y, first', last'⟩ := u
      simp only [condenseSolid, List.cons.injEq, Option.some.injEq] at h
      obtain ⟨rfl, hrest⟩ := h
      exact .token hrest

theorem Respaced.spaceMark_eq (h : Respaced before ts us) :
    spaceMark (startsWithSpace ts) before (headLexeme (skipSpaces ts)) =
        spaceMark (startsWithSpace us) before (headLexeme (skipSpaces us)) ∧
      Level (skipSpaces ts) (skipSpaces us) := by
  unfold Respaced at h
  rw [condense_eq, condense_eq, Bool.false_or, Bool.false_or] at h
  obtain ⟨hmark, hsolid⟩ := spaceMark_append_inj h
  exact ⟨hmark, level_of_condenseSolid hsolid⟩

/-- Behind their spaces both go on with the same token. -/
theorem Respaced.skipSpaces (h : Respaced before ts us) : Level (skipSpaces ts) (skipSpaces us) :=
  h.spaceMark_eq.2

/-- Where spaces count and there are none on one side, there are none on the other. -/
theorem Respaced.level (h : Respaced before ts us) (hx : headLexeme ts = some x)
    (solid : x.isSpace = false) (counts : spacesCount before (some x) = true) : Level ts us := by
  obtain ⟨hmark, hlevel⟩ := h.spaceMark_eq
  have hspaced : startsWithSpace ts = false := by simp [startsWithSpace, hx, solid]
  rw [skipSpaces_of_startsWithSpace hspaced] at hmark hlevel
  rw [← hlevel.headLexeme_eq, hx, hspaced] at hmark
  have hspaced' : startsWithSpace us = false := by
    cases hs : startsWithSpace us with
    | false => rfl
    | true =>
      rw [hs] at hmark
      simp [spaceMark, counts] at hmark
  rw [skipSpaces_of_startsWithSpace hspaced'] at hlevel
  exact hlevel

/-- Behind a digit both go on with the same digit, or neither goes on with one. -/
theorem Respaced.digit {d e : Digit} {first last : Nat}
    (h : Respaced (some (.digit d)) (⟨.digit e, first, last⟩ :: ts) us) :
    ∃ first' last' us', us = ⟨.digit e, first', last'⟩ :: us' ∧
      Respaced (some (.digit e)) ts us' := by
  cases h.level rfl rfl rfl with
  | token rest => exact ⟨_, _, _, rfl, rest⟩

/-- Both go on with a full stop and the same name, or neither does. -/
theorem Respaced.field {name : List Char} {dotFirst dotLast first last : Nat}
    (h : Respaced before
      (⟨.punct .fullStop, dotFirst, dotLast⟩ :: ⟨.ident name, first, last⟩ :: ts) us) :
    ∃ dotFirst' dotLast' first' last' us',
      us = ⟨.punct .fullStop, dotFirst', dotLast'⟩ :: ⟨.ident name, first', last'⟩ :: us' ∧
        Respaced (some (.ident name)) ts us' := by
  cases h.level rfl rfl (spacesCount_fullStop before) with
  | token rest =>
    cases rest.level rfl rfl rfl with
    | token rest' => exact ⟨_, _, _, _, _, rfl, rest'⟩

end Respaced

namespace Parse

/-! ## Productions on both -/

/-- Two attempts give the same up to spans and leave tokens that are respaced, or both give nothing. -/
inductive Alike {α : Type} (erase : α → α) : Option (α × List Token) → Option (α × List Token) → Prop
  | none : Alike erase none none
  | some {a b : α} {before : Option Lexeme} {left left' : List Token} (same : erase a = erase b)
      (rest : Respaced before left left') : Alike erase (some (a, left)) (some (b, left'))

section Alike

variable {o : Options} {before : Option Lexeme} {ts us : List Token}

theorem readDigits_respaced {d : Digit} (value : UInt64) (last last' : Nat)
    (h : Respaced (some (.digit d)) ts us) :
    (readDigits value last ts = none ∧ readDigits value last' us = none) ∨
      ∃ value' stop stop' e left left', readDigits value last ts = some (value', stop, left) ∧
        readDigits value last' us = some (value', stop', left') ∧
        Respaced (some (.digit e)) left left' := by
  fun_induction readDigits value last ts generalizing d us last' with
  | case1 value last e _ _ _ value' =>
    rename_i hlt
    obtain ⟨_, _, _, rfl, -⟩ := h.digit
    refine .inl ⟨rfl, ?_⟩
    rw [readDigits]
    exact if_pos hlt
  | case2 value last e _ stop _ value' hlt =>
    rename_i ih
    obtain ⟨_, stop', _, rfl, rest⟩ := h.digit
    rw [readDigits.eq_1 value last']
    simp only [show value * 10 + UInt64.ofNat e.val = value' from rfl, hlt, ↓reduceIte]
    exact ih stop' rest
  | case3 value last ts other =>
    have hstop : readDigits value last' us = some (value, last', us) := by
      unfold readDigits
      split
      next =>
        obtain ⟨_, _, _, rfl, -⟩ := h.symm.digit
        exact absurd rfl (other _ _ _ _)
      next => rfl
    exact .inr ⟨value, last, last', d, ts, us, rfl, hstop, h⟩

theorem number_respaced (h : Level ts us) :
    Alike Expr.eraseSpans (number ts).matched (number us).matched := by
  rw [Attempt.matched, number_outcome, Attempt.matched, number_outcome]
  cases h with
  | done => exact .none
  | @token x first last first' last' ts us rest =>
    cases x with
    | digit d =>
      rcases readDigits_respaced (UInt64.ofNat d.val) last last' rest with
        ⟨hread, hread'⟩ | ⟨value, stop, stop', e, left, left', hread, hread', hleft⟩
      · simp only [hread, hread']
        exact .none
      · simp only [hread, hread']
        exact .some rfl hleft
    | _ => exact .none

theorem fields_respaced {target target' : Expr} (same : target.eraseSpans = target'.eraseSpans)
    (h : Respaced before ts us) :
    (fields target ts).1.eraseSpans = (fields target' us).1.eraseSpans ∧
      ∃ before', Respaced before' (fields target ts).2 (fields target' us).2 := by
  fun_induction fields target ts generalizing target' us before with
  | case1 target _ _ name first last ts ih =>
    obtain ⟨dotFirst, dotLast, first', last', us, rfl, rest⟩ := h.field
    rw [fields]
    refine ih ?_ rest
    simp only [Expr.eraseSpans, Expr.mapSpan] at same ⊢
    rw [same]
    rfl
  | case2 target ts other =>
    have hstop : fields target' us = (target', us) := by
      unfold fields
      split
      next =>
        obtain ⟨_, _, _, _, _, rfl, -⟩ := h.symm.field
        exact absurd rfl (other _ _ _ _ _ _)
      next => rfl
    rw [hstop]
    exact ⟨same, before, h⟩

theorem closeStmt_respaced (h : Respaced before ts us) (stop stop' : Int) :
    ∃ before', Respaced before' (closeStmt stop ts).2 (closeStmt stop' us).2 := by
  have hskip := h.skipSpaces
  unfold closeStmt
  generalize skipSpaces ts = next, skipSpaces us = next' at hskip
  cases hskip with
  | done => exact ⟨before, h⟩
  | @token x _ _ _ _ _ _ rest =>
    cases x with
    | punct p =>
      cases p with
      | semicolon => exact ⟨_, rest⟩
      | _ => exact ⟨before, h⟩
    | _ => exact ⟨before, h⟩

/-- The productions give alike results on tokens that are respaced, if the first list is shorter
than `n`. -/
structure RespacesBelow (o : Options) (n : Nat) : Prop where
  expr : ∀ {ts us : List Token}, Level ts us → ts.length < n →
    Alike Expr.eraseSpans (Parse.expr o ts).matched (Parse.expr o us).matched
  stmts : ∀ {before : Option Lexeme} {ts us : List Token}, Respaced before ts us → ts.length < n →
    Stmt.eraseSpansAll (Parse.stmts o ts).results = Stmt.eraseSpansAll (Parse.stmts o us).results ∧
      ∃ before', Respaced before' (Parse.stmts o ts).left.val (Parse.stmts o us).left.val

theorem RespacesBelow.mono {m n : Nat} (below : RespacesBelow o n) (h : m ≤ n) : RespacesBelow o m :=
  ⟨fun level hlt => below.expr level (Nat.lt_of_lt_of_le hlt h),
    fun rest hlt => below.stmts rest (Nat.lt_of_lt_of_le hlt h)⟩

theorem RespacesBelow.block (below : RespacesBelow o ts.length) (h : Level ts us) :
    Alike Expr.eraseSpans (block o ts).matched (block o us).matched := by
  rw [matched_block, matched_block]
  cases h with
  | done => exact .none
  | @token x first last first' last' ts us rest =>
    cases x with
    | bracket b =>
      obtain ⟨shape, isOpen⟩ := b
      cases shape <;> cases isOpen <;> try exact .none
      obtain ⟨hresults, before', hleft⟩ := below.stmts rest (by simp)
      have hclose := hleft.skipSpaces
      simp only
      generalize skipSpaces (Parse.stmts o ts).left.val = next,
        skipSpaces (Parse.stmts o us).left.val = next' at hclose
      cases hclose with
      | done => exact .none
      | @token x _ _ _ _ _ _ rest =>
        cases x with
        | bracket b =>
          obtain ⟨shape, isOpen⟩ := b
          cases shape <;> cases isOpen <;> try exact .none
          exact .some (congrArg (Expr.block · ⟨0, 0⟩) hresults) rest
        | _ => exact .none
    | _ => exact .none

theorem RespacesBelow.primary (below : RespacesBelow o ts.length) (h : Level ts us) :
    Alike Expr.eraseSpans (primary o ts).matched (primary o us).matched := by
  have hnumber := number_respaced h
  have hblock := below.block h
  cases h with
  | done =>
    rw [matched_primary_nil]
    exact .none
  | @token x _ _ _ _ _ _ rest =>
    rw [matched_primary, matched_primary]
    cases x with
    | ident name => exact .some rfl rest
    | quoted q text => exact .some rfl rest
    | digit d => exact hnumber
    | keyword k => cases k <;> first | exact .none | exact .some rfl rest
    | bracket b =>
      obtain ⟨shape, isOpen⟩ := b
      cases shape <;> cases isOpen <;> try exact .none
      by_cases on : o.blocks = true
      · simp only [on, ↓reduceIte]
        exact hblock
      · simp only [on, Bool.false_eq_true, ↓reduceIte]
        exact .none
    | _ => exact .none

theorem RespacesBelow.access (below : RespacesBelow o ts.length) (h : Level ts us) :
    Alike Expr.eraseSpans (access o ts).matched (access o us).matched := by
  have hprimary := below.primary h
  rw [matched_access, matched_access]
  generalize (Parse.primary o ts).matched = m, (Parse.primary o us).matched = m' at hprimary
  cases hprimary with
  | none => exact .none
  | some same rest =>
    by_cases on : o.access = true
    · obtain ⟨hfields, before', hleft⟩ := fields_respaced same rest
      simp only [on, ↓reduceIte]
      exact .some hfields hleft
    · simp only [on, Bool.false_eq_true, ↓reduceIte]
      exact .some same rest

theorem RespacesBelow.exprAt (below : RespacesBelow o ts.length) (h : Level ts us) :
    Alike Expr.eraseSpans (Parse.expr o ts).matched (Parse.expr o us).matched := by
  have hcallee := below.access h
  rw [matched_expr, matched_expr]
  generalize hm : (Parse.access o ts).matched = m, (Parse.access o us).matched = m' at hcallee
  cases hcallee with
  | none => exact .none
  | @some called called' before left left' same rest =>
    have hlt := Attempt.length_matched hm
    have hopen := rest.skipSpaces
    simp only
    generalize hs : skipSpaces left = next, skipSpaces left' = next' at hopen
    cases hopen with
    | done => exact .some same rest
    | @token x _ _ _ _ ts₁ us₁ rest₁ =>
      cases x with
      | bracket b =>
        obtain ⟨shape, isOpen⟩ := b
        cases shape <;> cases isOpen <;> try exact .some same rest
        have hlt₁ := length_lt_of_skipSpaces hs
        have hle₁ := length_skipSpaces_le ts₁
        have hinput := below.expr rest₁.skipSpaces (by omega)
        simp only
        generalize (Parse.expr o (skipSpaces ts₁)).matched = m,
          (Parse.expr o (skipSpaces us₁)).matched = m' at hinput
        cases hinput with
        | none => exact .some same rest
        | @some input input' _ left₂ left₂' same₂ rest₂ =>
          have hclose := rest₂.skipSpaces
          simp only
          -- without the closing parenthesis the argument is dropped, on both sides
          generalize skipSpaces left₂ = next, skipSpaces left₂' = next' at hclose
          cases hclose with
          | done => exact .some same rest
          | @token x _ _ _ _ _ _ rest₃ =>
            cases x with
            | bracket b =>
              obtain ⟨shape, isOpen⟩ := b
              cases shape <;> cases isOpen <;> try exact .some same rest
              exact .some (congrArg₂ (Expr.call · · ⟨0, 0⟩) same same₂) rest₃
            | _ => exact .some same rest
      | _ => exact .some same rest

theorem RespacesBelow.letStmt (below : RespacesBelow o ts.length) (h : Level ts us) :
    Alike Stmt.eraseSpans (letStmt o ts).matched (letStmt o us).matched := by
  rw [matched_letStmt, matched_letStmt]
  cases h with
  | done => exact .none
  | @token x first last first' last' ts us rest =>
    cases x with
    | keyword k =>
      cases k <;> try exact .none
      have hname := rest.skipSpaces
      simp only
      generalize hs : skipSpaces ts = next, skipSpaces us = next' at hname
      cases hname with
      | done => exact .none
      | @token x _ _ _ _ ts₁ us₁ rest₁ =>
        cases x with
        | ident name =>
          have hlt₁ := length_lt_of_skipSpaces hs
          have hequal := rest₁.skipSpaces
          simp only
          generalize hs₁ : skipSpaces ts₁ = next, skipSpaces us₁ = next' at hequal
          cases hequal with
          | done => exact .none
          | @token x _ _ _ _ ts₂ us₂ rest₂ =>
            cases x with
            | operator p =>
              cases p <;> try exact .none
              have hlt₂ := length_lt_of_skipSpaces hs₁
              have hle₂ := length_skipSpaces_le ts₂
              have hvalue := below.expr rest₂.skipSpaces (by
                rw [List.length_cons]
                omega)
              simp only
              generalize (Parse.expr o (skipSpaces ts₂)).matched = m,
                (Parse.expr o (skipSpaces us₂)).matched = m' at hvalue
              cases hvalue with
              | none => exact .none
              | @some value value' _ left left' same rest₃ =>
                obtain ⟨before', hleft⟩ := closeStmt_respaced rest₃ value.span.stop value'.span.stop
                exact .some (congrArg
                  (Stmt.binding (some ⟨Text.ofChars name, ⟨0, 0⟩⟩) · ⟨0, 0⟩) same) hleft
            | _ => exact .none
        | _ => exact .none
    | _ => exact .none

theorem RespacesBelow.exprStmt (below : RespacesBelow o ts.length) (h : Level ts us) :
    Alike Stmt.eraseSpans (exprStmt o ts).matched (exprStmt o us).matched := by
  have hvalue := below.exprAt h
  rw [matched_exprStmt, matched_exprStmt]
  generalize (Parse.expr o ts).matched = m, (Parse.expr o us).matched = m' at hvalue
  cases hvalue with
  | none => exact .none
  | @some value value' _ left left' same rest =>
    obtain ⟨before', hleft⟩ := closeStmt_respaced rest value.span.stop value'.span.stop
    exact .some (congrArg (Stmt.stated · ⟨0, 0⟩) same) hleft

theorem RespacesBelow.stmt (below : RespacesBelow o ts.length) (h : Level ts us) :
    Alike Stmt.eraseSpans (stmt o ts).matched (stmt o us).matched := by
  have hlet := below.letStmt h
  have hexpr := below.exprStmt h
  rw [matched_stmt, matched_stmt]
  generalize (Parse.letStmt o ts).matched = m, (Parse.letStmt o us).matched = m' at hlet
  cases hlet with
  | none => exact hexpr
  | some same rest => exact .some same rest

theorem RespacesBelow.stmtsAt (below : RespacesBelow o ts.length) (h : Respaced before ts us) :
    Stmt.eraseSpansAll (Parse.stmts o ts).results = Stmt.eraseSpansAll (Parse.stmts o us).results ∧
      ∃ before', Respaced before' (Parse.stmts o ts).left.val (Parse.stmts o us).left.val := by
  have hstmt := (below.mono (length_skipSpaces_le ts)).stmt h.skipSpaces
  generalize hm : (Parse.stmt o (skipSpaces ts)).matched = m,
    hm' : (Parse.stmt o (skipSpaces us)).matched = m' at hstmt
  cases hstmt with
  -- the spaces that were passed over for an attempt that failed are still there
  | none =>
    obtain ⟨hresults, hleft⟩ := stmts_of_unmatched hm
    obtain ⟨hresults', hleft'⟩ := stmts_of_unmatched hm'
    rw [hresults, hleft, hresults', hleft']
    exact ⟨rfl, before, h⟩
  | some same rest =>
    obtain ⟨hresults, hleft⟩ := stmts_of_matched hm
    obtain ⟨hresults', hleft'⟩ := stmts_of_matched hm'
    have hlt := Attempt.length_matched hm
    have hle := length_skipSpaces_le ts
    obtain ⟨hmore, hrest⟩ := below.stmts rest (by omega)
    rw [hresults, hleft, hresults', hleft']
    exact ⟨congrArg₂ List.cons same hmore, hrest⟩

end Alike

theorem respacesBelow (o : Options) (n : Nat) : RespacesBelow o n := by
  induction n with
  | zero => exact ⟨fun _ h => absurd h (Nat.not_lt_zero _), fun _ h => absurd h (Nat.not_lt_zero _)⟩
  | succ n ih =>
    constructor
    · intro ts us level hlt
      exact (ih.mono (Nat.le_of_lt_succ hlt)).exprAt level
    · intro before ts us rest hlt
      exact (ih.mono (Nat.le_of_lt_succ hlt)).stmtsAt rest

/-- Statements are read alike from tokens that are respaced, and reading stops before tokens that
are. -/
theorem stmts_respaced (o : Options) {before : Option Lexeme} {ts us : List Token}
    (h : Respaced before ts us) :
    Stmt.eraseSpansAll (stmts o ts).results = Stmt.eraseSpansAll (stmts o us).results ∧
      Level (skipSpaces (stmts o ts).left.val) (skipSpaces (stmts o us).left.val) := by
  obtain ⟨hresults, before', hleft⟩ := (respacesBelow o ts.length).stmtsAt h
  exact ⟨hresults, hleft.skipSpaces⟩

end Parse

/-! ## Sources -/

/-- The tokens of a source reach its end. -/
def StopsAtEnd (source : Source) : Prop :=
  ReadsAll source (Cursor.start source).tokens

/-- The tokens of a source reach up to a quote that is not closed. -/
def StopsAtQuote (source : Source) : Prop :=
  ∃ stop, (Cursor.start source).Run (Cursor.start source).tokens ⟨source, stop⟩ ∧
    LastQuote source stop

/-- Tokens stop for one of the two reasons. -/
theorem stopsAtQuote_iff (source : Source) : StopsAtQuote source ↔ ¬ StopsAtEnd source := by
  obtain ⟨⟨source', stop⟩, run, hstop⟩ :=
    Cursor.exists_run (List.append_nil (Cursor.start source).tokens).symm
  obtain rfl : source = source' := run.source.symm
  constructor
  · rintro ⟨k, run', q, hquote, -⟩ ⟨⟨source'', d⟩, run'', hend⟩
    obtain rfl : source = source'' := run''.source.symm
    have hk : (⟨source, k⟩ : Cursor).tokens = [] := by simpa using run'.tokens
    have hd : (⟨source, d⟩ : Cursor).tokens = [] := by simpa using run''.tokens
    have hsame : k = d := (run'.limit hk).symm.trans (run''.limit hd)
    have hlt := (List.getElem?_eq_some_iff.mp hquote).1
    have hge := Cursor.atEnd_iff.mp hend
    simp only at hge
    omega
  · intro hopen
    rcases Cursor.stops (Cursor.next?_of_tokens_nil hstop) (run.bound (Nat.zero_le _)) with hend | hquote
    · exact absurd ⟨_, run, Cursor.atEnd_iff.mpr hend.ge⟩ hopen
    · exact ⟨stop, run, hquote⟩

instance (source : Source) : Decidable (StopsAtEnd source) :=
  decidable_of_iff _ ((atEnd_before_iff (List.append_nil (Cursor.start source).tokens).symm).trans
    (and_iff_left rfl))

instance (source : Source) : Decidable (StopsAtQuote source) :=
  decidable_of_iff _ (stopsAtQuote_iff source).symm

theorem respaced_of_condensedKinds {s s' : Source} (h : condensedKinds s = condensedKinds s') :
    Respaced none (Cursor.start s).tokens (Cursor.start s').tokens := by
  have hinj : Function.Injective (Option.map Kind.ofLexeme) :=
    Option.map_injective fun _ _ => Kind.ofLexeme_inj
  exact hinj.list_map h

/-- Two sources whose tokens stop for the same reason and have the same kinds, up to spaces that do not
count, are parsed as the same program up to spans, and either both without an error or both with an
error after the same number of statements. -/
theorem parse_respaced (o : Options) {s s' : Source}
    (stops : StopsAtEnd s ∧ StopsAtEnd s' ∨ StopsAtQuote s ∧ StopsAtQuote s')
    (same : condensedKinds s = condensedKinds s') :
    (parse o s).tree.eraseSpans = (parse o s').tree.eraseSpans ∧
      ((parse o s).error? = none ∧ (parse o s').error? = none ∨
        ∃ e e', (parse o s).error? = some (.program e) ∧
          (parse o s').error? = some (.program e') ∧ e.parsed = e'.parsed) := by
  obtain ⟨hstmts, hlevel⟩ := Parse.stmts_respaced o (respaced_of_condensedKinds same)
  change Stmt.eraseSpansAll (parse o s).tree.stmts = Stmt.eraseSpansAll (parse o s').tree.stmts at hstmts
  have hreads : StopsAtEnd s ↔ StopsAtEnd s' := by
    rcases stops with ⟨h, h'⟩ | ⟨h, h'⟩
    · exact iff_of_true h h'
    · exact iff_of_false ((stopsAtQuote_iff s).mp h) ((stopsAtQuote_iff s').mp h')
  have herror : (parse o s).error? = none ↔ (parse o s').error? = none := by
    rw [parse_error_none_iff, parse_error_none_iff]
    exact and_congr hreads hlevel.eq_nil_iff
  have hcount : (parse o s).tree.stmts.length = (parse o s').tree.stmts.length := by
    have hlength := congrArg List.length hstmts
    simpa [Stmt.eraseSpansAll, Stmt.mapSpanAll_eq_map] using hlength
  refine ⟨congrArg Program.mk hstmts, ?_⟩
  by_cases hnone : (parse o s).error? = none
  · exact .inl ⟨hnone, herror.mp hnone⟩
  · obtain ⟨k, hk⟩ := exists_error_of_incomplete hnone
    obtain ⟨k', hk'⟩ := exists_error_of_incomplete ((not_congr herror).mp hnone)
    exact .inr ⟨_, _, hk, hk', congrArg Nat.cast hcount⟩

theorem parse_respaced_call_before_open_quote :
    StopsAtQuote ("f ( \x7bb.c ;\x7d);\t1 2 'x".toList.map .char) ∧
      StopsAtQuote ("f(\x7b b.c;\x7d\n) ;1\n2'".toList.map .char) ∧
      condensedKinds ("f ( \x7bb.c ;\x7d);\t1 2 'x".toList.map .char) =
        condensedKinds ("f(\x7b b.c;\x7d\n) ;1\n2'".toList.map .char) ∧
      (parse .all ("f ( \x7bb.c ;\x7d);\t1 2 'x".toList.map .char)).tree.eraseSpans =
        (parse .all ("f(\x7b b.c;\x7d\n) ;1\n2'".toList.map .char)).tree.eraseSpans ∧
      (parse .all ("f ( \x7bb.c ;\x7d);\t1 2 'x".toList.map .char)).error? = some (.program ⟨18, 3⟩) ∧
      (parse .all ("f(\x7b b.c;\x7d\n) ;1\n2'".toList.map .char)).error? = some (.program ⟨16, 3⟩) := by
  have stops : StopsAtQuote ("f ( \x7bb.c ;\x7d);\t1 2 'x".toList.map .char) ∧
      StopsAtQuote ("f(\x7b b.c;\x7d\n) ;1\n2'".toList.map .char) := by decide +kernel
  have same : condensedKinds ("f ( \x7bb.c ;\x7d);\t1 2 'x".toList.map .char) =
      condensedKinds ("f(\x7b b.c;\x7d\n) ;1\n2'".toList.map .char) := by decide +kernel
  obtain ⟨htree, -⟩ := parse_respaced .all (.inr stops) same
  refine ⟨stops.1, stops.2, same, htree, ?_⟩
  decide +kernel

end LetLang
