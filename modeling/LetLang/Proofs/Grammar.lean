import LetLang.Parse.Production

/-!
# The grammar

The language as a context-free grammar over tokens, with no order among alternatives and no rule that
takes as much as it can:

    program  := { ws stmt } ws
    stmt     := let | exprStmt
    let      := "let" ws ident ws "=" ws expr [ws ";"]
    exprStmt := expr [ws ";"]
    expr     := access | access ws "(" ws expr ws ")"
    access   := primary { "." ident }
    primary  := ident | number | "true" | "false" | quoted | block
    block    := "{" { ws stmt } ws "}"

A phrase is derived at the front of a list of tokens and leaves the rest of it. The rest is looked at
in one place only: a number is a run of digits with no further digit behind it.
-/
namespace LetLang.Grammar

open Parse (Options)

/-- The lexeme a list of tokens begins with. -/
def headLexeme (ts : List Token) : Option Lexeme :=
  ts.head?.map Token.lexeme

/-- The list begins with a digit. -/
def DigitFirst (ts : List Token) : Prop :=
  ∃ d, headLexeme ts = some (.digit d)

/-- Any number of spaces. -/
inductive Spaces : List Token → List Token → Prop
  | none (ts : List Token) : Spaces ts ts
  | more {s : Space} {first last : Nat} {ts rest : List Token} (others : Spaces ts rest) :
      Spaces (⟨.space s, first, last⟩ :: ts) rest

/-- The end of a statement whose last expression ends at `stop`: a semicolon after spaces, or
nothing. Gives the end of the statement. -/
inductive Ending (stop : Int) : List Token → Int → List Token → Prop
  | none (ts : List Token) : Ending stop ts stop ts
  | semicolon {first last : Nat} {ts rest : List Token}
      (ws : Spaces ts (⟨.punct .semicolon, first, last⟩ :: rest)) : Ending stop ts last rest

/-- What is derived: a tree together with the rule it is derived by. -/
inductive Phrase where
  | stmts (ss : List Stmt)
  | stmt (s : Stmt)
  | letStmt (s : Stmt)
  | exprStmt (s : Stmt)
  | expr (e : Expr)
  | access (e : Expr)
  | primary (e : Expr)
  | number (e : Expr)
  | block (e : Expr)

/-- The phrase stands at the front of the first list of tokens, and the second list is left. -/
inductive Derives (o : Options) : Phrase → List Token → List Token → Prop
  | noStmt (ts : List Token) : Derives o (.stmts []) ts ts
  | moreStmts {s : Stmt} {ss : List Stmt} {ts ts₁ ts₂ rest : List Token} (ws : Spaces ts ts₁)
      (head : Derives o (.stmt s) ts₁ ts₂) (tail : Derives o (.stmts ss) ts₂ rest) :
      Derives o (.stmts (s :: ss)) ts rest
  | letStmt {s : Stmt} {ts rest : List Token} (h : Derives o (.letStmt s) ts rest) :
      Derives o (.stmt s) ts rest
  | exprStmt {s : Stmt} {ts rest : List Token} (h : Derives o (.exprStmt s) ts rest) :
      Derives o (.stmt s) ts rest
  | binding {first last nameFirst nameLast eqFirst eqLast : Nat} {name : List Char} {value : Expr}
      {stop : Int} {ts ts₁ ts₂ ts₃ ts₄ rest : List Token}
      (ws : Spaces ts (⟨.ident name, nameFirst, nameLast⟩ :: ts₁))
      (ws₁ : Spaces ts₁ (⟨.operator .equal, eqFirst, eqLast⟩ :: ts₂))
      (ws₂ : Spaces ts₂ ts₃) (bound : Derives o (.expr value) ts₃ ts₄)
      (ending : Ending value.span.stop ts₄ stop rest) :
      Derives o
        (.letStmt (.binding (some ⟨Text.ofChars name, ⟨nameFirst, nameLast⟩⟩) value ⟨first, stop⟩))
        (⟨.keyword .letKw, first, last⟩ :: ts) rest
  | stated {value : Expr} {stop : Int} {ts ts₁ rest : List Token}
      (said : Derives o (.expr value) ts ts₁) (ending : Ending value.span.stop ts₁ stop rest) :
      Derives o (.exprStmt (.stated value ⟨value.span.start, stop⟩)) ts rest
  | bare {e : Expr} {ts rest : List Token} (h : Derives o (.access e) ts rest) :
      Derives o (.expr e) ts rest
  | call {called input : Expr} {first last first' last' : Nat} {ts ts₁ ts₂ ts₃ ts₄ rest : List Token}
      (callee : Derives o (.access called) ts ts₁)
      (ws : Spaces ts₁ (⟨.bracket ⟨.paren, true⟩, first, last⟩ :: ts₂))
      (ws₁ : Spaces ts₂ ts₃) (argument : Derives o (.expr input) ts₃ ts₄)
      (ws₂ : Spaces ts₄ (⟨.bracket ⟨.paren, false⟩, first', last'⟩ :: rest)) :
      Derives o (.expr (.call called input ⟨called.span.start, last'⟩)) ts rest
  | target {e : Expr} {ts rest : List Token} (h : Derives o (.primary e) ts rest) :
      Derives o (.access e) ts rest
  | field {target : Expr} {dotFirst dotLast first last : Nat} {name : List Char}
      {ts rest : List Token} (on : o.access = true)
      (object : Derives o (.access target) ts
        (⟨.punct .fullStop, dotFirst, dotLast⟩ :: ⟨.ident name, first, last⟩ :: rest)) :
      Derives o (.access (.access target (some ⟨Text.ofChars name, ⟨first, last⟩⟩)
        ⟨target.span.start, last⟩)) ts rest
  | ident (name : List Char) (first last : Nat) (rest : List Token) :
      Derives o (.primary (.ident ⟨Text.ofChars name, ⟨first, last⟩⟩))
        (⟨.ident name, first, last⟩ :: rest) rest
  | trueLit (first last : Nat) (rest : List Token) :
      Derives o (.primary (.bool true ⟨first, last⟩)) (⟨.keyword .trueKw, first, last⟩ :: rest) rest
  | falseLit (first last : Nat) (rest : List Token) :
      Derives o (.primary (.bool false ⟨first, last⟩)) (⟨.keyword .falseKw, first, last⟩ :: rest) rest
  | quoted (q : Quote) (text : List Char) (first last : Nat) (rest : List Token) :
      Derives o (.primary (.string (Text.ofChars text) (some q.sourceChar) ⟨first, last⟩))
        (⟨.quoted q text, first, last⟩ :: rest) rest
  | numeral {e : Expr} {ts rest : List Token} (h : Derives o (.number e) ts rest) :
      Derives o (.primary e) ts rest
  | braced {e : Expr} {ts rest : List Token} (on : o.blocks = true)
      (h : Derives o (.block e) ts rest) : Derives o (.primary e) ts rest
  | number {t : Token} {run rest : List Token} {ds : List Digit}
      (digits : (t :: run).map Token.lexeme = ds.map Lexeme.digit) (maximal : ¬ DigitFirst rest)
      (fits : Decimal.value 0 ds ≤ 0xFFFFFFFF) :
      Derives o (.number (.number (UInt32.ofNat (Decimal.value 0 ds))
        ⟨t.first, (run.getLastD t).last⟩)) (t :: (run ++ rest)) rest
  | block {ss : List Stmt} {first last first' last' : Nat} {ts ts₁ rest : List Token}
      (body : Derives o (.stmts ss) ts ts₁)
      (ws : Spaces ts₁ (⟨.bracket ⟨.curly, false⟩, first', last'⟩ :: rest)) :
      Derives o (.block (.block ss ⟨first, last'⟩)) (⟨.bracket ⟨.curly, true⟩, first, last⟩ :: ts) rest

/-- The whole list of tokens is a program. -/
def IsProgram (o : Options) (p : Program) (ts : List Token) : Prop :=
  ∃ left, Derives o (.stmts p.stmts) ts left ∧ Spaces left []

/-- The whole list of tokens is one expression between spaces. -/
def IsExpression (o : Options) (x : Expr) (ts : List Token) : Prop :=
  ∃ us left, Spaces ts us ∧ Derives o (.expr x) us left ∧ Spaces left []

/-! ## What is left is a suffix -/

theorem Spaces.suffix {ts rest : List Token} (ws : Spaces ts rest) : rest <:+ ts := by
  induction ws with
  | none => exact List.suffix_refl _
  | more _ ih => exact ih.trans (List.suffix_cons _ _)

theorem Spaces.suffix_tail {ts rest : List Token} {t : Token} (ws : Spaces ts (t :: rest)) :
    rest <:+ ts :=
  (List.suffix_cons t rest).trans ws.suffix

theorem Ending.suffix {stop stop' : Int} {ts rest : List Token}
    (ending : Ending stop ts stop' rest) : rest <:+ ts := by
  cases ending with
  | none => exact List.suffix_refl ts
  | semicolon ws => exact ws.suffix_tail

theorem Derives.suffix {o : Options} {φ : Phrase} {ts rest : List Token}
    (h : Derives o φ ts rest) : rest <:+ ts := by
  induction h with
  | noStmt => exact List.suffix_refl _
  | moreStmts ws _ _ ihs ihss => exact ihss.trans (ihs.trans ws.suffix)
  | letStmt _ ih => exact ih
  | exprStmt _ ih => exact ih
  | binding ws ws₁ ws₂ _ ending ih =>
    have hvalue := ws₂.suffix.trans (ws₁.suffix_tail.trans ws.suffix_tail)
    exact (ending.suffix.trans (ih.trans hvalue)).trans (List.suffix_cons _ _)
  | stated _ ending ih => exact ending.suffix.trans ih
  | bare _ ih => exact ih
  | call _ ws ws₁ _ ws₂ ihc ihi =>
    have hinput := ws₁.suffix.trans (ws.suffix_tail.trans ihc)
    exact ws₂.suffix_tail.trans (ihi.trans hinput)
  | target _ ih => exact ih
  | field _ _ ih => exact (List.suffix_cons _ _).trans ((List.suffix_cons _ _).trans ih)
  | ident | trueLit | falseLit | quoted => exact List.suffix_cons _ _
  | numeral _ ih => exact ih
  | braced _ _ ih => exact ih
  | number => exact (List.suffix_append _ _).trans (List.suffix_cons _ _)
  | block _ ws ih => exact ws.suffix_tail.trans (ih.trans (List.suffix_cons _ _))

/-! ## What is derived is there -/

/-- The tree of a phrase is not absent. -/
def Phrase.Present : Phrase → Prop
  | .stmts _ => True
  | .stmt s | .letStmt s | .exprStmt s => s.isAbsent = false
  | .expr e | .access e | .primary e | .number e | .block e => e.isAbsent = false

theorem Derives.present {o : Options} {φ : Phrase} {ts rest : List Token}
    (h : Derives o φ ts rest) : φ.Present := by
  induction h with
  | noStmt | moreStmts => trivial
  | letStmt _ ih => exact ih
  | exprStmt _ ih => exact ih
  | bare _ ih => exact ih
  | target _ ih => exact ih
  | numeral _ ih => exact ih
  | braced _ _ ih => exact ih
  | binding | stated | call | field | ident | trueLit | falseLit | quoted | number | block => rfl

end LetLang.Grammar
