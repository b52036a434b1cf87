import LetLang.Tree
import LetLang.Parse.Attempt

/-!
# Productions

The grammar of the language, where `ws` is any number of space tokens:

    stmt     := let | exprStmt
    let      := "let" ws ident ws "=" ws expr [ws ";"]
    exprStmt := expr [ws ";"]
    expr     := call
    call     := access ws "(" ws expr ws ")" | access
    access   := primary { "." ident }
    primary  := ident | number | "true" | "false" | quoted | block
    number   := digit { digit }
    block    := "{" { ws stmt } ws "}"

Alternatives are tried in order. A callee whose parenthesis does not lead to a call stands alone. A
number takes all digits there are and must fit in 32 bits. Blocks and member access can be switched
off.
-/
namespace LetLang.Parse

/-- The optional parts of the language. -/
structure Options where
  blocks : Bool
  access : Bool
deriving DecidableEq

def Options.all : Options :=
  ⟨true, true⟩

/-- Takes the semicolon that ends a statement, with the spaces before it. Gives the position of the
semicolon, or `stop` where there is none and nothing is taken. -/
def closeStmt (stop : Int) (ts : List Token) : Int × List Token :=
  match skipSpaces ts with
  | ⟨.punct .semicolon, _, last⟩ :: rest => (last, rest)
  | _ => (stop, ts)

theorem length_closeStmt_le (stop : Int) (ts : List Token) :
    (closeStmt stop ts).2.length ≤ ts.length := by
  unfold closeStmt
  split
  next h => exact Nat.le_of_lt (length_lt_of_skipSpaces h)
  next => exact Nat.le_refl _

/-- The largest number. -/
def maxNumber : UInt64 := 0xFFFFFFFF

/-- Reads on after the digits that make `value` and end at `last`. There is no number if the value
grows above the largest one. -/
def readDigits (value : UInt64) (last : Nat) : List Token → Option (UInt64 × Nat × List Token)
  | ⟨.digit d, _, last'⟩ :: ts =>
    let value' := value * 10 + UInt64.ofNat d.val
    if maxNumber < value' then none else readDigits value' last' ts
  | ts => some (value, last, ts)

theorem length_of_readDigits {value value' : UInt64} {last last' : Nat} {ts left : List Token}
    (h : readDigits value last ts = some (value', last', left)) : left.length ≤ ts.length := by
  fun_induction readDigits value last ts with
  | case1 => cases h
  | case2 value last d _ last' ts value' _ ih =>
    have := ih h
    simp only [List.length_cons]
    omega
  | case3 => cases h; exact Nat.le_refl _

def number : (ts : List Token) → Attempt Expr ts
  | ⟨.digit d, first, last⟩ :: ts =>
    match h : readDigits (UInt64.ofNat d.val) last ts with
    | none => .fail (.note (.overflow first))
    | some (value, last, left) =>
      have := length_of_readDigits h
      ⟨.empty, some (.number value.toUInt32 ⟨first, last⟩,
        ⟨left, by simp only [List.length_cons]; omega⟩)⟩
  | _ => .fail .empty

/-- Reads the fields that follow a target. -/
def fields (target : Expr) : List Token → Expr × List Token
  | ⟨.punct .fullStop, _, _⟩ :: ⟨.ident name, first, last⟩ :: ts =>
    fields (.access target (some ⟨Text.ofChars name, ⟨first, last⟩⟩) ⟨target.span.start, last⟩) ts
  | ts => (target, ts)

theorem length_fields_le (target : Expr) (ts : List Token) :
    (fields target ts).2.length ≤ ts.length := by
  fun_induction fields target ts with
  | case1 target _ _ name first last ts ih =>
    simp only [List.length_cons]
    omega
  | case2 => exact Nat.le_refl _

mutual

def stmt (o : Options) (ts : List Token) : Attempt Stmt ts :=
  match letStmt o ts with
  | ⟨log, some m⟩ => ⟨log, some m⟩
  | ⟨log, none⟩ =>
    match exprStmt o ts with
    | ⟨more, result⟩ => ⟨log ++ more, result⟩
termination_by ts.length * 8 + 6

def letStmt (o : Options) : (ts : List Token) → Attempt Stmt ts
  | ⟨.keyword .letKw, first, _⟩ :: ts =>
    match h₁ : skipSpaces ts with
    | ⟨.ident name, nameFirst, nameLast⟩ :: ts₁ =>
      match h₂ : skipSpaces ts₁ with
      | [] => .fail .empty
      | ⟨.operator .equal, _, _⟩ :: ts₂ =>
        have lt₁ := length_lt_of_skipSpaces h₁
        have lt₂ := length_lt_of_skipSpaces h₂
        have le₂ := length_skipSpaces_le ts₂
        match expr o (skipSpaces ts₂) with
        | ⟨log, none⟩ => .fail (log ++ Log.note (.noValue first))
        | ⟨log, some (value, ⟨left, lt⟩)⟩ =>
          have le := length_closeStmt_le value.span.stop left
          ⟨log, some (
            .binding (some ⟨Text.ofChars name, ⟨nameFirst, nameLast⟩⟩) value
              ⟨first, (closeStmt value.span.stop left).1⟩,
            ⟨(closeStmt value.span.stop left).2, by simp only [List.length_cons]; omega⟩)⟩
      | t :: _ => .fail (.note (.expectedEqual first t.first))
    | _ => .fail (.note (.expectedName first))
  | _ => .fail .empty
termination_by ts => ts.length * 8

def exprStmt (o : Options) (ts : List Token) : Attempt Stmt ts :=
  match expr o ts with
  | ⟨log, none⟩ => .fail log
  | ⟨log, some (value, ⟨left, lt⟩)⟩ =>
    have le := length_closeStmt_le value.span.stop left
    ⟨log, some (
      .stated value ⟨value.span.start, (closeStmt value.span.stop left).1⟩,
      ⟨(closeStmt value.span.stop left).2, by omega⟩)⟩
termination_by ts.length * 8 + 5

def expr (o : Options) (ts : List Token) : Attempt Expr ts :=
  call o ts
termination_by ts.length * 8 + 4

def call (o : Options) (ts : List Token) : Attempt Expr ts :=
  match access o ts with
  | ⟨log, none⟩ => .fail log
  | ⟨log, some (called, ⟨left, lt⟩)⟩ =>
    match h₁ : skipSpaces left with
    | ⟨.bracket ⟨.paren, true⟩, first, _⟩ :: ts₁ =>
      have lt₁ := length_lt_of_skipSpaces h₁
      have le₁ := length_skipSpaces_le ts₁
      match expr o (skipSpaces ts₁) with
      | ⟨more, none⟩ => ⟨log ++ more ++ Log.note (.bareCallee first), some (called, ⟨left, lt⟩)⟩
      | ⟨more, some (input, ⟨left₂, lt₂⟩)⟩ =>
        match h₂ : skipSpaces left₂ with
        | ⟨.bracket ⟨.paren, false⟩, _, last⟩ :: rest =>
          have lt₃ := length_lt_of_skipSpaces h₂
          ⟨log ++ more, some (.call called input ⟨called.span.start, last⟩,
            ⟨rest, by omega⟩)⟩
        | _ => ⟨log ++ more ++ Log.note (.bareCallee first), some (called, ⟨left, lt⟩)⟩
    | _ => ⟨log, some (called, ⟨left, lt⟩)⟩
termination_by ts.length * 8 + 3

def access (o : Options) (ts : List Token) : Attempt Expr ts :=
  match primary o ts with
  | ⟨log, none⟩ => .fail log
  | ⟨log, some (target, ⟨left, lt⟩)⟩ =>
    if o.access then
      have le := length_fields_le target left
      ⟨log, some ((fields target left).1, ⟨(fields target left).2, by omega⟩)⟩
    else ⟨log, some (target, ⟨left, lt⟩)⟩
termination_by ts.length * 8 + 2

def primary (o : Options) : (ts : List Token) → Attempt Expr ts
  | [] => .fail .empty
  | t :: ts =>
    let found (e : Expr) : Attempt Expr (t :: ts) := ⟨.empty, some (e, ⟨ts, by simp⟩)⟩
    match t.lexeme with
    | .ident name => found (.ident ⟨Text.ofChars name, t.span⟩)
    | .digit _ => number (t :: ts)
    | .keyword .trueKw => found (.bool true t.span)
    | .keyword .falseKw => found (.bool false t.span)
    | .quoted q text => found (.string (Text.ofChars text) (some q.sourceChar) t.span)
    | .bracket ⟨.curly, true⟩ => if o.blocks then block o (t :: ts) else .fail .empty
    | _ => .fail .empty
termination_by ts => ts.length * 8 + 1

def block (o : Options) : (ts : List Token) → Attempt Expr ts
  | ⟨.bracket ⟨.curly, true⟩, first, _⟩ :: ts =>
    match stmts o ts with
    | ⟨log, ss, ⟨left, le⟩⟩ =>
      match h : skipSpaces left with
      | ⟨.bracket ⟨.curly, false⟩, _, last⟩ :: rest =>
        have lt := length_lt_of_skipSpaces h
        ⟨log, some (.block ss ⟨first, last⟩, ⟨rest, by simp only [List.length_cons]; omega⟩)⟩
      | _ => .fail (log ++ Log.note (.unclosed first))
  | _ => .fail .empty
termination_by ts => ts.length * 8

/-- The statements at the front, with the spaces before each. -/
def stmts (o : Options) (ts : List Token) : Repeated Stmt ts :=
  have le := length_skipSpaces_le ts
  match stmt o (skipSpaces ts) with
  | ⟨log, none⟩ => ⟨log, [], ⟨ts, Nat.le_refl _⟩⟩
  | ⟨log, some (s, ⟨left, lt⟩)⟩ =>
    match stmts o left with
    | ⟨more, ss, ⟨rest, le'⟩⟩ => ⟨log ++ more, s :: ss, ⟨rest, by omega⟩⟩
termination_by ts.length * 8 + 7

end

/-!
## Equations

What each production does, without the bounds that make the recursion end. Reasoning about the
parser starts from these equations and does not unfold the productions.
-/

theorem number_outcome (ts : List Token) :
    (number ts).outcome =
      match ts with
      | ⟨.digit d, first, last⟩ :: ts =>
        match readDigits (UInt64.ofNat d.val) last ts with
        | none => ⟨.note (.overflow first), none⟩
        | some (value, last, left) =>
          ⟨.empty, some (.number value.toUInt32 ⟨first, last⟩, left)⟩
      | _ => ⟨.empty, none⟩ := by
  unfold number
  split
  next d first last ts =>
    split
    next h => simp only [h]; rfl
    next value last' left h => simp only [h]; rfl
  next => rfl

theorem stmt_outcome (o : Options) (ts : List Token) :
    (stmt o ts).outcome =
      match (letStmt o ts).outcome with
      | ⟨log, some m⟩ => ⟨log, some m⟩
      | ⟨log, none⟩ => ⟨log ++ (exprStmt o ts).outcome.log, (exprStmt o ts).outcome.result⟩ := by
  rw [stmt]
  rcases letStmt o ts with ⟨log, _ | m⟩
  · rfl
  · rfl

theorem letStmt_outcome (o : Options) (ts : List Token) :
    (letStmt o ts).outcome =
      match ts with
      | ⟨.keyword .letKw, first, _⟩ :: ts =>
        match skipSpaces ts with
        | ⟨.ident name, nameFirst, nameLast⟩ :: ts₁ =>
          match skipSpaces ts₁ with
          | [] => ⟨.empty, none⟩
          | ⟨.operator .equal, _, _⟩ :: ts₂ =>
            match (expr o (skipSpaces ts₂)).outcome with
            | ⟨log, none⟩ => ⟨log ++ Log.note (.noValue first), none⟩
            | ⟨log, some (value, left)⟩ =>
              ⟨log, some (
                .binding (some ⟨Text.ofChars name, ⟨nameFirst, nameLast⟩⟩) value
                  ⟨first, (closeStmt value.span.stop left).1⟩,
                (closeStmt value.span.stop left).2)⟩
          | t :: _ => ⟨.note (.expectedEqual first t.first), none⟩
        | _ => ⟨.note (.expectedName first), none⟩
      | _ => ⟨.empty, none⟩ := by
  rw [letStmt.eq_def]
  split
  next first _ ts =>
    split
    next name nameFirst nameLast ts₁ h₁ =>
      simp only [h₁]
      split
      next h₂ => simp only [h₂]; rfl
      next ts₂ h₂ =>
        simp only [h₂]
        rcases expr o (skipSpaces ts₂) with ⟨log, _ | ⟨value, left, lt⟩⟩
        · rfl
        · rfl
      next t tail other h₂ => simp only [h₂]; rfl
    next => simp only; rfl
  next => rfl

theorem exprStmt_outcome (o : Options) (ts : List Token) :
    (exprStmt o ts).outcome =
      match (expr o ts).outcome with
      | ⟨log, none⟩ => ⟨log, none⟩
      | ⟨log, some (value, left)⟩ =>
        ⟨log, some (
          .stated value ⟨value.span.start, (closeStmt value.span.stop left).1⟩,
          (closeStmt value.span.stop left).2)⟩ := by
  rw [exprStmt]
  rcases expr o ts with ⟨log, _ | ⟨value, left, lt⟩⟩
  · rfl
  · rfl

theorem expr_eq (o : Options) (ts : List Token) : expr o ts = call o ts := by
  rw [expr]

theorem call_outcome (o : Options) (ts : List Token) :
    (call o ts).outcome =
      match (access o ts).outcome with
      | ⟨log, none⟩ => ⟨log, none⟩
      | ⟨log, some (called, left)⟩ =>
        match skipSpaces left with
        | ⟨.bracket ⟨.paren, true⟩, first, _⟩ :: ts₁ =>
          match (expr o (skipSpaces ts₁)).outcome with
          | ⟨more, none⟩ => ⟨log ++ more ++ Log.note (.bareCallee first), some (called, left)⟩
          | ⟨more, some (input, left₂)⟩ =>
            match skipSpaces left₂ with
            | ⟨.bracket ⟨.paren, false⟩, _, last⟩ :: rest =>
              ⟨log ++ more, some (.call called input ⟨called.span.start, last⟩, rest)⟩
            | _ => ⟨log ++ more ++ Log.note (.bareCallee first), some (called, left)⟩
        | _ => ⟨log, some (called, left)⟩ := by
  rw [call]
  rcases access o ts with ⟨log, _ | ⟨called, left, lt⟩⟩
  · rfl
  · simp only [Attempt.outcome, Option.map_some]
    split
    next first _ ts₁ h₁ =>
      simp only [h₁]
      rcases expr o (skipSpaces ts₁) with ⟨more, _ | ⟨input, left₂, lt₂⟩⟩
      · rfl
      · simp only [Option.map_some]
        split
        next h₂ => simp only [h₂, Option.map_some]
        next other =>
          split
          next h₂ => exact absurd h₂ (other _ _ _)
          next => rfl
    next other =>
      split
      next h₁ => exact absurd h₁ (other _ _ _)
      next => rfl

theorem access_outcome (o : Options) (ts : List Token) :
    (access o ts).outcome =
      match (primary o ts).outcome with
      | ⟨log, none⟩ => ⟨log, none⟩
      | ⟨log, some (target, left)⟩ =>
        ⟨log, some (if o.access then fields target left else (target, left))⟩ := by
  rw [access]
  rcases primary o ts with ⟨log, _ | ⟨target, left, lt⟩⟩
  · rfl
  · by_cases on : o.access = true
    · simp [Attempt.outcome, on]
    · simp [Attempt.outcome, on]

theorem primary_nil (o : Options) : (primary o []).outcome = ⟨.empty, none⟩ := by
  rw [primary]
  rfl

theorem primary_outcome (o : Options) (t : Token) (ts : List Token) :
    (primary o (t :: ts)).outcome =
      match t.lexeme with
      | .ident name => ⟨.empty, some (.ident ⟨Text.ofChars name, t.span⟩, ts)⟩
      | .digit _ => (number (t :: ts)).outcome
      | .keyword .trueKw => ⟨.empty, some (.bool true t.span, ts)⟩
      | .keyword .falseKw => ⟨.empty, some (.bool false t.span, ts)⟩
      | .quoted q text =>
        ⟨.empty, some (.string (Text.ofChars text) (some q.sourceChar) t.span, ts)⟩
      | .bracket ⟨.curly, true⟩ =>
        if o.blocks then (block o (t :: ts)).outcome else ⟨.empty, none⟩
      | _ => ⟨.empty, none⟩ := by
  rw [primary]
  cases t.lexeme with
  | keyword k => cases k <;> rfl
  | bracket b =>
    rcases b with ⟨shape, isOpen⟩
    cases shape <;> cases isOpen <;> try rfl
    cases o.blocks <;> rfl
  | _ => rfl

theorem block_outcome (o : Options) (ts : List Token) :
    (block o ts).outcome =
      match ts with
      | ⟨.bracket ⟨.curly, true⟩, first, _⟩ :: ts =>
        match skipSpaces (stmts o ts).left.val with
        | ⟨.bracket ⟨.curly, false⟩, _, last⟩ :: rest =>
          ⟨(stmts o ts).log, some (.block (stmts o ts).results ⟨first, last⟩, rest)⟩
        | _ => ⟨(stmts o ts).log ++ Log.note (.unclosed first), none⟩
      | _ => ⟨.empty, none⟩ := by
  rw [block.eq_def]
  split
  next first _ ts =>
    rcases stmts o ts with ⟨log, ss, left, le⟩
    simp only
    split
    next h => simp only [h]; rfl
    next other =>
      split
      next h => exact absurd h (other _ _ _)
      next => rfl
  next => rfl

theorem stmts_of_none {o : Options} {ts : List Token} {log : Log}
    (h : (stmt o (skipSpaces ts)).outcome = ⟨log, none⟩) :
    (stmts o ts).log = log ∧ (stmts o ts).results = [] ∧ (stmts o ts).left.val = ts := by
  rw [stmts]
  rcases hs : stmt o (skipSpaces ts) with ⟨log', _ | ⟨s, left, lt⟩⟩
  · rw [hs] at h
    cases h
    exact ⟨rfl, rfl, rfl⟩
  · rw [hs] at h
    cases h

theorem stmts_of_some {o : Options} {ts left : List Token} {log : Log} {s : Stmt}
    (h : (stmt o (skipSpaces ts)).outcome = ⟨log, some (s, left)⟩) :
    (stmts o ts).log = log ++ (stmts o left).log ∧
      (stmts o ts).results = s :: (stmts o left).results ∧
      (stmts o ts).left.val = (stmts o left).left.val := by
  rw [stmts.eq_def o ts]
  rcases hs : stmt o (skipSpaces ts) with ⟨log', _ | ⟨s', left', lt⟩⟩
  · rw [hs] at h
    cases h
  · rw [hs] at h
    cases h
    exact ⟨rfl, rfl, rfl⟩

end LetLang.Parse
