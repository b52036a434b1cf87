import LetLang.Parse

/-!
# Speculative reading

A production can be tried on a live cursor. It works on copies: a copy is moved on as tokens are read
from it, and it takes the place of the live cursor only where the production commits to what was read.
Copies are made at every level, and inside the loops a copy is committed after each digit, field or
statement. One production makes no copy. A primary only looks at the next token, and then it reads it
from the live cursor or hands the live cursor on to the productions of numbers and blocks.

The cursor that a trial leaves behind is part of its result, also where nothing matched. All that the
type of a trial promises of it is what makes the recursion end.
-/
namespace LetLang

namespace Cursor

/-- How many characters are left. -/
def ahead (c : Cursor) : Nat :=
  c.source.length - c.pos

theorem ahead_lt_of_next? {c d : Cursor} {t : Token} (h : c.next? = some (t, d)) :
    d.ahead < c.ahead := by
  obtain ⟨hsource, hlt, hle⟩ := next?_advances h
  unfold ahead
  rw [hsource] at hle ⊢
  omega

theorem le_skipFrom (p : Lexeme → Bool) (pos : Nat) (rs : Source) : pos ≤ (skipFrom p pos rs).2 := by
  cases hs : scan rs with
  | none =>
    have hstop : skipFrom p pos rs = (none, pos) := skipFrom_of_none hs
    exact Nat.le_of_eq (congrArg Prod.snd hstop).symm
  | some m =>
    obtain ⟨x, n⟩ := m
    have hw := scan_width hs
    rw [skipFrom_of_some hs]
    split
    next =>
      have hrest := le_skipFrom p (pos + n) (rs.drop n)
      simp only
      omega
    next => exact Nat.le_refl pos
termination_by rs.length
decreasing_by
  simp only [List.length_drop]
  omega

theorem ahead_skipWhile_le (p : Lexeme → Bool) (c : Cursor) : (c.skipWhile p).2.ahead ≤ c.ahead :=
  Nat.sub_le_sub_left (le_skipFrom p c.pos c.rest) c.source.length

theorem ahead_skipSpaces_le (c : Cursor) : c.skipSpaces.2.ahead ≤ c.ahead :=
  ahead_skipWhile_le _ c

theorem ahead_skipSemicolon_le (c : Cursor) : c.skipSemicolon.2.ahead ≤ c.ahead := by
  unfold skipSemicolon skipOnce
  split
  next => exact Nat.le_refl _
  next h =>
    split
    next => exact Nat.le_of_lt (ahead_lt_of_next? h)
    next => exact Nat.le_refl _

end Cursor

namespace Parse

/-- What trying a production on the live cursor `c` gives, and the live cursor afterwards. -/
structure Trial (α : Type) (c : Cursor) where
  notes : List Note
  result : Option α
  cursor : Cursor
  ahead_le : cursor.ahead ≤ c.ahead
  ahead_lt : result.isSome → cursor.ahead < c.ahead

/-- What a repeated production gives, and the live cursor afterwards. -/
structure Trials (α : Type) (c : Cursor) where
  notes : List Note
  results : List α
  cursor : Cursor
  ahead_le : cursor.ahead ≤ c.ahead

namespace Trial

/-- The copies are dropped. -/
def drop {α : Type} {c : Cursor} (notes : List Note) : Trial α c :=
  ⟨notes, none, c, Nat.le_refl _, nofun⟩

/-- A copy takes the place of the live cursor. -/
def commit {α : Type} {c : Cursor} (notes : List Note) (a : α) (copy : Cursor)
    (lt : copy.ahead < c.ahead) : Trial α c :=
  ⟨notes, some a, copy, Nat.le_of_lt lt, fun _ => lt⟩

def reading {α : Type} {c : Cursor} (t : Trial α c) : Reading (Option α) :=
  ⟨t.notes, t.result, t.cursor⟩

end Trial

/-! ## Loops -/

/-- Takes the semicolon that ends a statement, with the spaces before it. Without a semicolon the
cursor stays, and the statement ends at `stop`. -/
def tryClose (stop : Int) (live : Cursor) : Int × Cursor :=
  let copy := live.skipSpaces.2
  match copy.skipSemicolon with
  | (some semicolon, copy) => (semicolon.last, copy)
  | (none, _) => (stop, live)

theorem ahead_tryClose_le (stop : Int) (live : Cursor) : (tryClose stop live).2.ahead ≤ live.ahead := by
  have hspaces := live.ahead_skipSpaces_le
  have hsemicolon := live.skipSpaces.2.ahead_skipSemicolon_le
  unfold tryClose
  simp only
  split
  next h =>
    rw [h] at hsemicolon
    exact Nat.le_trans hsemicolon hspaces
  next => exact Nat.le_refl _

/-- Takes the digits that follow those of `value`, which end at `last`. There is no number if the value
grows above the largest one; the cursor is then behind the digits that still fitted. -/
def tryDigits (value : UInt64) (last : Nat) (live : Cursor) : Option (UInt64 × Nat) × Cursor :=
  match _h : live.next? with
  | some (⟨.digit d, _, last'⟩, copy) =>
    let value' := value * 10 + UInt64.ofNat d.val
    if maxNumber < value' then (none, live) else tryDigits value' last' copy
  | _ => (some (value, last), live)
termination_by live.ahead
decreasing_by exact Cursor.ahead_lt_of_next? _h

theorem ahead_tryDigits_le (value : UInt64) (last : Nat) (live : Cursor) :
    (tryDigits value last live).2.ahead ≤ live.ahead := by
  fun_induction tryDigits value last live with
  | case1 => exact Nat.le_refl _
  | case2 value last live d _ last' copy h value' _ ih =>
    exact Nat.le_trans ih (Nat.le_of_lt (Cursor.ahead_lt_of_next? h))
  | case3 => exact Nat.le_refl _

/-- Takes the fields that follow a target. -/
def tryFields (target : Expr) (live : Cursor) : Expr × Cursor :=
  match _h : live.next? with
  | some (⟨.punct .fullStop, _, _⟩, copy) =>
    match _h' : copy.next? with
    | some (⟨.ident name, first, last⟩, copy) =>
      tryFields (.access target (some ⟨Text.ofChars name, ⟨first, last⟩⟩) ⟨target.span.start, last⟩) copy
    | _ => (target, live)
  | _ => (target, live)
termination_by live.ahead
decreasing_by exact Nat.lt_trans (Cursor.ahead_lt_of_next? _h') (Cursor.ahead_lt_of_next? _h)

theorem ahead_tryFields_le (target : Expr) (live : Cursor) :
    (tryFields target live).2.ahead ≤ live.ahead := by
  fun_induction tryFields target live with
  | case1 target live _ _ copy h name first last copy' h' ih =>
    have := Cursor.ahead_lt_of_next? h
    have := Cursor.ahead_lt_of_next? h'
    omega
  | case2 => exact Nat.le_refl _
  | case3 => exact Nat.le_refl _

/-! ## Productions -/

def tryNumber (live : Cursor) : Trial Expr live :=
  match h : live.next? with
  | some (⟨.digit d, first, last⟩, copy) =>
    have lt := Cursor.ahead_lt_of_next? h
    have le := ahead_tryDigits_le (UInt64.ofNat d.val) last copy
    match (tryDigits (UInt64.ofNat d.val) last copy).1 with
    | none => .drop [.overflow first]
    | some (value, last') =>
      .commit [] (.number value.toUInt32 ⟨first, last'⟩)
        (tryDigits (UInt64.ofNat d.val) last copy).2 (Nat.lt_of_le_of_lt le lt)
  | _ => .drop []

mutual

def tryStmt (o : Options) (live : Cursor) : Trial Stmt live :=
  match tryLet o live with
  | ⟨notes, some s, live', le, lt⟩ => ⟨notes, some s, live', le, lt⟩
  | ⟨notes, none, live', le, _⟩ =>
    match tryExprStmt o live' with
    | ⟨more, result, live'', le', lt'⟩ =>
      ⟨notes ++ more, result, live'', Nat.le_trans le' le, fun h => Nat.lt_of_lt_of_le (lt' h) le⟩
termination_by live.ahead * 8 + 6

def tryLet (o : Options) (live : Cursor) : Trial Stmt live :=
  match h : live.next? with
  | some (⟨.keyword .letKw, first, _⟩, copy) =>
    have lt := Cursor.ahead_lt_of_next? h
    have le := copy.ahead_skipSpaces_le
    match h₁ : copy.skipSpaces.2.next? with
    | some (⟨.ident name, nameFirst, nameLast⟩, copy) =>
      have lt₁ := Cursor.ahead_lt_of_next? h₁
      have le₁ := copy.ahead_skipSpaces_le
      match h₂ : copy.skipSpaces.2.next? with
      | none => .drop []
      | some (⟨.operator .equal, _, _⟩, copy) =>
        have lt₂ := Cursor.ahead_lt_of_next? h₂
        have le₂ := copy.ahead_skipSpaces_le
        match tryExpr o copy.skipSpaces.2 with
        | ⟨notes, none, _, _, _⟩ => .drop (notes ++ [.noValue first])
        | ⟨notes, some value, copy, le₃, _⟩ =>
          have le₄ := ahead_tryClose_le value.span.stop copy
          .commit notes
            (.binding (some ⟨Text.ofChars name, ⟨nameFirst, nameLast⟩⟩) value
              ⟨first, (tryClose value.span.stop copy).1⟩)
            (tryClose value.span.stop copy).2 (by omega)
      | some (t, _) => .drop [.expectedEqual first t.first]
    | _ => .drop [.expectedName first]
  | _ => .drop []
termination_by live.ahead * 8

def tryExprStmt (o : Options) (live : Cursor) : Trial Stmt live :=
  match tryExpr o live with
  | ⟨notes, none, _, _, _⟩ => .drop notes
  | ⟨notes, some value, copy, _, lt⟩ =>
    have lt := lt rfl
    have le := ahead_tryClose_le value.span.stop copy
    .commit notes (.stated value ⟨value.span.start, (tryClose value.span.stop copy).1⟩)
      (tryClose value.span.stop copy).2 (by omega)
termination_by live.ahead * 8 + 5

def tryExpr (o : Options) (live : Cursor) : Trial Expr live :=
  tryCall o live
termination_by live.ahead * 8 + 4

def tryCall (o : Options) (live : Cursor) : Trial Expr live :=
  match tryAccess o live with
  | ⟨notes, none, _, _, _⟩ => .drop notes
  | ⟨notes, some called, copy, _, lt⟩ =>
    have lt := lt rfl
    have le := copy.ahead_skipSpaces_le
    match h : copy.skipSpaces.2.next? with
    | some (⟨.bracket ⟨.paren, true⟩, first, _⟩, inner) =>
      have lt₁ := Cursor.ahead_lt_of_next? h
      have le₁ := inner.ahead_skipSpaces_le
      match tryExpr o inner.skipSpaces.2 with
      | ⟨more, none, _, _, _⟩ => .commit (notes ++ more ++ [.bareCallee first]) called copy lt
      | ⟨more, some input, inner, le₂, _⟩ =>
        have le₃ := inner.ahead_skipSpaces_le
        match h₂ : inner.skipSpaces.2.next? with
        | some (⟨.bracket ⟨.paren, false⟩, _, last⟩, inner) =>
          have lt₂ := Cursor.ahead_lt_of_next? h₂
          .commit (notes ++ more) (.call called input ⟨called.span.start, last⟩) inner (by omega)
        | _ => .commit (notes ++ more ++ [.bareCallee first]) called copy lt
    | _ => .commit notes called copy lt
termination_by live.ahead * 8 + 3

def tryAccess (o : Options) (live : Cursor) : Trial Expr live :=
  match tryPrimary o live with
  | ⟨notes, none, _, _, _⟩ => .drop notes
  | ⟨notes, some target, copy, _, lt⟩ =>
    have lt := lt rfl
    if o.access then
      have le := ahead_tryFields_le target copy
      .commit notes (tryFields target copy).1 (tryFields target copy).2 (by omega)
    else .commit notes target copy lt
termination_by live.ahead * 8 + 2

def tryPrimary (o : Options) (live : Cursor) : Trial Expr live :=
  match h : live.next? with
  | none => .drop []
  | some (t, next) =>
    let found (e : Expr) : Trial Expr live := .commit [] e next (Cursor.ahead_lt_of_next? h)
    match t.lexeme with
    | .ident name => found (.ident ⟨Text.ofChars name, t.span⟩)
    | .digit _ => tryNumber live
    | .keyword .trueKw => found (.bool true t.span)
    | .keyword .falseKw => found (.bool false t.span)
    | .quoted q text => found (.string (Text.ofChars text) (some q.sourceChar) t.span)
    | .bracket ⟨.curly, true⟩ => if o.blocks then tryBlock o live else .drop []
    | _ => .drop []
termination_by live.ahead * 8 + 1

def tryBlock (o : Options) (live : Cursor) : Trial Expr live :=
  match h : live.next? with
  | some (⟨.bracket ⟨.curly, true⟩, first, _⟩, copy) =>
    have lt := Cursor.ahead_lt_of_next? h
    match tryStmts o copy with
    | ⟨notes, ss, copy, le⟩ =>
      have le₁ := copy.ahead_skipSpaces_le
      match h₁ : copy.skipSpaces.2.next? with
      | some (⟨.bracket ⟨.curly, false⟩, _, last⟩, copy) =>
        have lt₁ := Cursor.ahead_lt_of_next? h₁
        .commit notes (.block ss ⟨first, last⟩) copy (by omega)
      | _ => .drop (notes ++ [.unclosed first])
  | _ => .drop []
termination_by live.ahead * 8

/-- Takes the statements that follow, with the spaces before each. -/
def tryStmts (o : Options) (live : Cursor) : Trials Stmt live :=
  have le := live.ahead_skipSpaces_le
  match tryStmt o live.skipSpaces.2 with
  | ⟨notes, none, _, _, _⟩ => ⟨notes, [], live, Nat.le_refl _⟩
  | ⟨notes, some s, copy, _, lt⟩ =>
    have lt := lt rfl
    match tryStmts o copy with
    | ⟨more, ss, live', le'⟩ => ⟨notes ++ more, s :: ss, live', by omega⟩
termination_by live.ahead * 8 + 7

end

/-- Takes statements as long as there are any, and the spaces after the last. -/
def tryProgram (o : Options) (live : Cursor) : Reading Program :=
  let read := tryStmts o live
  let live := read.cursor.skipSpaces.2
  ⟨read.notes ++ [.stopped read.results.length live.pos], ⟨read.results⟩, live⟩

/-- A production tried at a cursor. -/
def Production.tryAt (o : Options) (p : Production) (live : Cursor) : Reading (Option Node) :=
  let node {α : Type} (f : α → Node) (t : Trial α live) : Reading (Option Node) :=
    ⟨t.notes, t.result.map f, t.cursor⟩
  match p with
  | .stmt => node .stmt (tryStmt o live)
  | .letStmt => node .stmt (tryLet o live)
  | .exprStmt => node .stmt (tryExprStmt o live)
  | .expr => node .expr (tryExpr o live)
  | .call => node .expr (tryCall o live)
  | .access => node .expr (tryAccess o live)
  | .primary => node .expr (tryPrimary o live)
  | .number => node .expr (tryNumber live)
  | .block => node .expr (tryBlock o live)

/-!
## Equations

What trying each production does, without the bounds that make the recursion end.
-/

theorem tryNumber_reading (live : Cursor) :
    (tryNumber live).reading =
      match live.next? with
      | some (⟨.digit d, first, last⟩, copy) =>
        match (tryDigits (UInt64.ofNat d.val) last copy).1 with
        | none => ⟨[.overflow first], none, live⟩
        | some (value, last') =>
          ⟨[], some (.number value.toUInt32 ⟨first, last'⟩),
            (tryDigits (UInt64.ofNat d.val) last copy).2⟩
      | _ => ⟨[], none, live⟩ := by
  unfold tryNumber
  split
  next d first last copy h =>
    simp only [h]
    rcases (tryDigits (UInt64.ofNat d.val) last copy).1 with _ | ⟨value, last'⟩
    · rfl
    · rfl
  next other =>
    split
    next h => exact absurd h (other _ _ _ _)
    next => rfl

section

variable (o : Options) (live : Cursor)

theorem tryStmt_reading :
    (tryStmt o live).reading =
      match (tryLet o live).reading with
      | ⟨notes, some s, live'⟩ => ⟨notes, some s, live'⟩
      | ⟨notes, none, live'⟩ =>
        match (tryExprStmt o live').reading with
        | ⟨more, result, live''⟩ => ⟨notes ++ more, result, live''⟩ := by
  rw [tryStmt]
  rcases tryLet o live with ⟨notes, _ | s, live', le, lt⟩
  · rfl
  · rfl

theorem tryLet_reading :
    (tryLet o live).reading =
      match live.next? with
      | some (⟨.keyword .letKw, first, _⟩, copy) =>
        match copy.skipSpaces.2.next? with
        | some (⟨.ident name, nameFirst, nameLast⟩, copy) =>
          match copy.skipSpaces.2.next? with
          | none => ⟨[], none, live⟩
          | some (⟨.operator .equal, _, _⟩, copy) =>
            match (tryExpr o copy.skipSpaces.2).reading with
            | ⟨notes, none, _⟩ => ⟨notes ++ [.noValue first], none, live⟩
            | ⟨notes, some value, copy⟩ =>
              ⟨notes,
                some (.binding (some ⟨Text.ofChars name, ⟨nameFirst, nameLast⟩⟩) value
                  ⟨first, (tryClose value.span.stop copy).1⟩),
                (tryClose value.span.stop copy).2⟩
          | some (t, _) => ⟨[.expectedEqual first t.first], none, live⟩
        | _ => ⟨[.expectedName first], none, live⟩
      | _ => ⟨[], none, live⟩ := by
  rw [tryLet]
  split
  next first _ copy h =>
    simp only [h]
    split
    next name nameFirst nameLast copy h₁ =>
      simp only [h₁]
      split
      next h₂ => simp only [h₂]; rfl
      next copy h₂ =>
        simp only [h₂]
        rcases tryExpr o copy.skipSpaces.2 with ⟨notes, _ | value, copy', le, lt⟩
        · rfl
        · rfl
      next t copy other h₂ => simp only [h₂]; rfl
    next => simp only; rfl
  next other =>
    split
    next h => exact absurd h (other _ _ _)
    next => rfl

theorem tryExprStmt_reading :
    (tryExprStmt o live).reading =
      match (tryExpr o live).reading with
      | ⟨notes, none, _⟩ => ⟨notes, none, live⟩
      | ⟨notes, some value, copy⟩ =>
        ⟨notes, some (.stated value ⟨value.span.start, (tryClose value.span.stop copy).1⟩),
          (tryClose value.span.stop copy).2⟩ := by
  rw [tryExprStmt]
  rcases tryExpr o live with ⟨notes, _ | value, copy, le, lt⟩
  · rfl
  · rfl

theorem tryExpr_eq : tryExpr o live = tryCall o live := by
  rw [tryExpr]

theorem tryCall_reading :
    (tryCall o live).reading =
      match (tryAccess o live).reading with
      | ⟨notes, none, _⟩ => ⟨notes, none, live⟩
      | ⟨notes, some called, copy⟩ =>
        match copy.skipSpaces.2.next? with
        | some (⟨.bracket ⟨.paren, true⟩, first, _⟩, inner) =>
          match (tryExpr o inner.skipSpaces.2).reading with
          | ⟨more, none, _⟩ => ⟨notes ++ more ++ [.bareCallee first], some called, copy⟩
          | ⟨more, some input, inner⟩ =>
            match inner.skipSpaces.2.next? with
            | some (⟨.bracket ⟨.paren, false⟩, _, last⟩, inner) =>
              ⟨notes ++ more, some (.call called input ⟨called.span.start, last⟩), inner⟩
            | _ => ⟨notes ++ more ++ [.bareCallee first], some called, copy⟩
        | _ => ⟨notes, some called, copy⟩ := by
  rw [tryCall]
  rcases tryAccess o live with ⟨notes, _ | called, copy, le, lt⟩
  · rfl
  · simp only [Trial.reading]
    split
    next first _ inner h =>
      simp only [h]
      rcases tryExpr o inner.skipSpaces.2 with ⟨more, _ | input, inner', le', lt'⟩
      · rfl
      · simp only
        split
        next h₂ => simp only [h₂]; rfl
        next other =>
          split
          next h₂ => exact absurd h₂ (other _ _ _)
          next => rfl
    next other =>
      split
      next h => exact absurd h (other _ _ _)
      next => rfl

theorem tryAccess_reading :
    (tryAccess o live).reading =
      match (tryPrimary o live).reading with
      | ⟨notes, none, _⟩ => ⟨notes, none, live⟩
      | ⟨notes, some target, copy⟩ =>
        if o.access then ⟨notes, some (tryFields target copy).1, (tryFields target copy).2⟩
        else ⟨notes, some target, copy⟩ := by
  rw [tryAccess]
  rcases tryPrimary o live with ⟨notes, _ | target, copy, le, lt⟩
  · rfl
  · by_cases on : o.access = true
    · simp [Trial.reading, Trial.commit, on]
    · simp [Trial.reading, Trial.commit, on]

theorem tryPrimary_reading :
    (tryPrimary o live).reading =
      match live.next? with
      | none => ⟨[], none, live⟩
      | some (t, next) =>
        match t.lexeme with
        | .ident name => ⟨[], some (.ident ⟨Text.ofChars name, t.span⟩), next⟩
        | .digit _ => (tryNumber live).reading
        | .keyword .trueKw => ⟨[], some (.bool true t.span), next⟩
        | .keyword .falseKw => ⟨[], some (.bool false t.span), next⟩
        | .quoted q text =>
          ⟨[], some (.string (Text.ofChars text) (some q.sourceChar) t.span), next⟩
        | .bracket ⟨.curly, true⟩ =>
          if o.blocks then (tryBlock o live).reading else ⟨[], none, live⟩
        | _ => ⟨[], none, live⟩ := by
  rw [tryPrimary]
  split
  next h => simp only [h]; rfl
  next t next h =>
    simp only [h]
    cases t.lexeme with
    | keyword k => cases k <;> rfl
    | bracket b =>
      rcases b with ⟨shape, isOpen⟩
      cases shape <;> cases isOpen <;> try rfl
      cases o.blocks <;> rfl
    | _ => rfl

theorem tryBlock_reading :
    (tryBlock o live).reading =
      match live.next? with
      | some (⟨.bracket ⟨.curly, true⟩, first, _⟩, copy) =>
        match (tryStmts o copy).cursor.skipSpaces.2.next? with
        | some (⟨.bracket ⟨.curly, false⟩, _, last⟩, copy') =>
          ⟨(tryStmts o copy).notes, some (.block (tryStmts o copy).results ⟨first, last⟩), copy'⟩
        | _ => ⟨(tryStmts o copy).notes ++ [.unclosed first], none, live⟩
      | _ => ⟨[], none, live⟩ := by
  rw [tryBlock]
  split
  next first _ copy h =>
    simp only [h]
    rcases tryStmts o copy with ⟨notes, ss, copy', le⟩
    simp only
    split
    next h₁ => simp only [h₁]; rfl
    next other =>
      split
      next h₁ => exact absurd h₁ (other _ _ _)
      next => rfl
  next other =>
    split
    next h => exact absurd h (other _ _ _)
    next => rfl

theorem tryStmts_of_none {notes : List Note} {copy : Cursor}
    (h : (tryStmt o live.skipSpaces.2).reading = ⟨notes, none, copy⟩) :
    (tryStmts o live).notes = notes ∧ (tryStmts o live).results = [] ∧
      (tryStmts o live).cursor = live := by
  rw [tryStmts]
  rcases ht : tryStmt o live.skipSpaces.2 with ⟨notes', _ | s, copy', le, lt⟩
  · rw [ht] at h
    cases h
    exact ⟨rfl, rfl, rfl⟩
  · rw [ht] at h
    cases h

theorem tryStmts_of_some {notes : List Note} {s : Stmt} {copy : Cursor}
    (h : (tryStmt o live.skipSpaces.2).reading = ⟨notes, some s, copy⟩) :
    (tryStmts o live).notes = notes ++ (tryStmts o copy).notes ∧
      (tryStmts o live).results = s :: (tryStmts o copy).results ∧
      (tryStmts o live).cursor = (tryStmts o copy).cursor := by
  rw [tryStmts.eq_def o live]
  rcases ht : tryStmt o live.skipSpaces.2 with ⟨notes', _ | s', copy', le, lt⟩
  · rw [ht] at h
    cases h
  · rw [ht] at h
    cases h
    exact ⟨rfl, rfl, rfl⟩

end

end Parse

end LetLang
