import LetLang.Proofs.Soundness

/-!
# What is derived is matched

The productions take the first alternative that works and as much as they can, so a derivation is found
again only if nothing behind the phrase could extend it: no full stop and no opening parenthesis after
an expression, and no semicolon after a statement. Inside a derivation this is always so, because
neither of them begins a phrase. A primary is never extended, and a list of statements is taken as a
whole when a closing brace or the end follows.
-/
namespace LetLang.Grammar

open Parse (Options skipSpaces closeStmt fields)

/-! ## How phrases begin -/

/-- The lexemes an expression can begin with. -/
def beginsExpr : Lexeme → Bool
  | .ident _ | .digit _ | .quoted _ _ => true
  | .keyword k => decide (k = .trueKw ∨ k = .falseKw)
  | .bracket b => decide (b = ⟨.curly, true⟩)
  | _ => false

/-- The lexemes a statement can begin with. -/
def beginsStmt (x : Lexeme) : Bool :=
  decide (x = .keyword .letKw) || beginsExpr x

/-- How a list of tokens begins that has the phrase at its front. -/
def Phrase.Begins (ts : List Token) : Phrase → Prop
  | .stmts _ => True
  | .stmt _ => ∃ x, headLexeme ts = some x ∧ beginsStmt x = true
  | .letStmt _ => headLexeme ts = some (.keyword .letKw)
  | .exprStmt _ | .expr _ | .access _ | .primary _ | .number _ | .block _ =>
    ∃ x, headLexeme ts = some x ∧ beginsExpr x = true

theorem Derives.begins {o : Options} {φ : Phrase} {ts rest : List Token}
    (h : Derives o φ ts rest) : φ.Begins ts := by
  induction h with
  | noStmt | moreStmts => trivial
  | letStmt _ ih => exact ⟨_, ih, rfl⟩
  | exprStmt _ ih =>
    obtain ⟨x, hx, hb⟩ := ih
    exact ⟨x, hx, by simp [beginsStmt, hb]⟩
  | binding => rfl
  | stated _ _ ih => exact ih
  | bare _ ih => exact ih
  | call _ _ _ _ _ ih _ => exact ih
  | target _ ih => exact ih
  | field _ _ ih => exact ih
  | ident | trueLit | falseLit | quoted | block => exact ⟨_, rfl, rfl⟩
  | numeral _ ih => exact ih
  | braced _ _ ih => exact ih
  | @number t run rest ds digits _ _ =>
    cases ds with
    | nil => simp at digits
    | cons d ds =>
      simp only [List.map_cons, List.cons.injEq] at digits
      exact ⟨_, congrArg some digits.1, rfl⟩

/-! ## What can follow -/

theorem Spaces.head {ts us : List Token} (ws : Spaces ts us) :
    ts = us ∨ ∃ s, headLexeme ts = some (.space s) := by
  cases ws with
  | none => exact .inl rfl
  | more => exact .inr ⟨_, rfl⟩

theorem Spaces.noDot {ts us : List Token} (ws : Spaces ts us)
    (h : headLexeme us ≠ some (.punct .fullStop)) : headLexeme ts ≠ some (.punct .fullStop) := by
  rcases ws.head with rfl | ⟨s, hs⟩
  · exact h
  · rw [hs]
    exact nofun

theorem skipSpaces_of_head {ts : List Token}
    (h : ∀ x, headLexeme ts = some x → x.isSpace = false) : skipSpaces ts = ts := by
  cases ts with
  | nil => rfl
  | cons t ts => exact Parse.skipSpaces_cons (h t.lexeme rfl) ts

theorem isSpace_head_skipSpaces {ts : List Token} {x : Lexeme}
    (h : headLexeme (skipSpaces ts) = some x) : x.isSpace = false := by
  induction ts with
  | nil => cases h
  | cons t ts ih =>
    by_cases ht : t.lexeme.isSpace = true
    · rw [Parse.skipSpaces_of_space ht] at h
      exact ih h
    · have ht' : t.lexeme.isSpace = false := by simpa using ht
      rw [Parse.skipSpaces_cons ht'] at h
      cases h
      exact ht'

theorem Spaces.skipSpaces_eq {ts us : List Token} (ws : Spaces ts us)
    (h : ∀ x, headLexeme us = some x → x.isSpace = false) : skipSpaces ts = us := by
  induction ws with
  | none => exact skipSpaces_of_head h
  | more _ ih => exact ih h

/-- Nothing at the front of the list extends an expression before it. -/
structure StopsExpr (rest : List Token) : Prop where
  noDot : headLexeme rest ≠ some (.punct .fullStop)
  noParen : headLexeme (skipSpaces rest) ≠ some (.bracket ⟨.paren, true⟩)

/-- Nothing at the front of the list extends a statement before it. -/
structure StopsStmt (rest : List Token) : Prop extends StopsExpr rest where
  noSemicolon : headLexeme (skipSpaces rest) ≠ some (.punct .semicolon)

/-- A lexeme that ends an expression before it. -/
def endsExpr (x : Lexeme) : Bool :=
  !x.isSpace && decide (x ≠ .punct .fullStop) && decide (x ≠ .bracket ⟨.paren, true⟩)

/-- A lexeme that ends a statement before it. -/
def endsStmt (x : Lexeme) : Bool :=
  endsExpr x && decide (x ≠ .punct .semicolon)

theorem isSpace_of_endsExpr {x : Lexeme} (h : endsExpr x = true) : x.isSpace = false := by
  simp only [endsExpr, Bool.and_eq_true, Bool.not_eq_true'] at h
  exact h.1.1

theorem endsExpr_of_endsStmt {x : Lexeme} (h : endsStmt x = true) : endsExpr x = true := by
  simp only [endsStmt, Bool.and_eq_true] at h
  exact h.1

theorem endsStmt_of_beginsStmt {x : Lexeme} (h : beginsStmt x = true) : endsStmt x = true := by
  cases x with
  | ident | digit | quoted | keyword => rfl
  | bracket b =>
    obtain rfl : b = ⟨.curly, true⟩ := by simpa [beginsStmt, beginsExpr] using h
    rfl
  | space | punct | operator => cases h

theorem Spaces.stopsExpr {ts us : List Token} (ws : Spaces ts us)
    (h : ∀ x, headLexeme us = some x → endsExpr x = true) : StopsExpr ts := by
  have hskip := ws.skipSpaces_eq fun x hx => isSpace_of_endsExpr (h x hx)
  constructor
  · refine ws.noDot fun hdot => ?_
    exact absurd (h _ hdot) (by decide)
  · intro hparen
    rw [hskip] at hparen
    exact absurd (h _ hparen) (by decide)

/-- A list that begins with a statement ends one before it. -/
theorem endsStmt_of_head {ts : List Token} {x : Lexeme} (hx : headLexeme ts = some x)
    (hb : beginsStmt x = true) : ∀ y, headLexeme ts = some y → endsStmt y = true := by
  intro y hy
  rw [hx] at hy
  cases hy
  exact endsStmt_of_beginsStmt hb

theorem Spaces.skipSpaces_eq_of_endsStmt {ts us : List Token} (ws : Spaces ts us)
    (h : ∀ x, headLexeme us = some x → endsStmt x = true) : skipSpaces ts = us :=
  ws.skipSpaces_eq fun x hx => isSpace_of_endsExpr (endsExpr_of_endsStmt (h x hx))

theorem Spaces.stopsStmt {ts us : List Token} (ws : Spaces ts us)
    (h : ∀ x, headLexeme us = some x → endsStmt x = true) : StopsStmt ts := by
  refine ⟨ws.stopsExpr fun x hx => endsExpr_of_endsStmt (h x hx), ?_⟩
  have hskip := ws.skipSpaces_eq_of_endsStmt h
  intro hsemi
  rw [hskip] at hsemi
  exact absurd (h _ hsemi) (by decide)

/-- What follows a list of statements: a closing brace or the end. -/
def Closed (us : List Token) : Prop :=
  ∀ x, headLexeme us = some x → x = .bracket ⟨.curly, false⟩

theorem closed_nil : Closed [] := by
  intro x hx
  cases hx

theorem Closed.ends {us : List Token} (h : Closed us) :
    ∀ x, headLexeme us = some x → endsStmt x = true := by
  intro x hx
  rw [h x hx]
  rfl

theorem Derives.skipSpaces_eq {o : Options} {s : Stmt} {ts us rest : List Token}
    (h : Derives o (.stmt s) us rest) (ws : Spaces ts us) : skipSpaces ts = us := by
  obtain ⟨x, hx, hb⟩ := h.begins
  exact ws.skipSpaces_eq_of_endsStmt (endsStmt_of_head hx hb)

theorem Derives.skipSpaces_eq_expr {o : Options} {e : Expr} {ts us rest : List Token}
    (h : Derives o (.expr e) us rest) (ws : Spaces ts us) : skipSpaces ts = us :=
  (Derives.exprStmt (.stated h (.none rest))).skipSpaces_eq ws

/-- Before further statements a statement is never extended. -/
theorem Derives.stopsStmt {o : Options} {ss : List Stmt} {ts rest us : List Token}
    (h : Derives o (.stmts ss) ts rest) (ws : Spaces rest us) (closed : Closed us) :
    StopsStmt ts := by
  cases h with
  | noStmt => exact ws.stopsStmt closed.ends
  | moreStmts ws' head _ =>
    obtain ⟨x, hx, hb⟩ := head.begins
    exact ws'.stopsStmt (endsStmt_of_head hx hb)

end LetLang.Grammar

namespace LetLang.Parse

open Grammar

/-! ## The productions on derived phrases -/

theorem fields_of_noDot {ts : List Token} (target : Expr)
    (h : headLexeme ts ≠ some (.punct .fullStop)) : fields target ts = (target, ts) := by
  unfold fields
  split
  next => exact absurd rfl h
  next => rfl

theorem closeStmt_of_noSemicolon {ts : List Token} (stop : Int)
    (h : headLexeme (skipSpaces ts) ≠ some (.punct .semicolon)) : closeStmt stop ts = (stop, ts) := by
  unfold closeStmt
  split
  next hs =>
    rw [hs] at h
    exact absurd rfl h
  next => rfl

theorem closeStmt_of_spaces {ts rest : List Token} {first last : Nat} (stop : Int)
    (ws : Spaces ts (⟨.punct .semicolon, first, last⟩ :: rest)) :
    closeStmt stop ts = ((last : Int), rest) := by
  have hskip : skipSpaces ts = ⟨.punct .semicolon, first, last⟩ :: rest := by
    refine ws.skipSpaces_eq fun x hx => ?_
    cases hx
    rfl
  unfold closeStmt
  rw [hskip]

/-- The optional semicolon is taken where the derivation has one, and only there. -/
theorem closeStmt_of_ending {stop stop' : Int} {ts rest : List Token}
    (ending : Ending stop ts stop' rest) (stops : StopsStmt rest) :
    closeStmt stop ts = (stop', rest) ∧ StopsExpr ts := by
  cases ending with
  | none => exact ⟨closeStmt_of_noSemicolon stop stops.noSemicolon, stops.toStopsExpr⟩
  | semicolon ws =>
    refine ⟨closeStmt_of_spaces stop ws, ws.stopsExpr fun x hx => ?_⟩
    cases hx
    rfl

theorem matched_letStmt_of_head {o : Options} {ts : List Token}
    (h : headLexeme ts ≠ some (.keyword .letKw)) : (letStmt o ts).matched = none := by
  rw [matched_letStmt]
  split
  next => exact absurd rfl h
  next => rfl

/-- No statement is matched where none can begin. -/
theorem matched_stmt_of_head {o : Options} {ts : List Token}
    (h : ∀ x, headLexeme ts = some x → beginsStmt x = false) : (stmt o ts).matched = none := by
  cases hs : (stmt o ts).matched with
  | none => rfl
  | some m =>
    obtain ⟨x, hx, hb⟩ := ((soundBelow o ts.length).stmt hs).begins
    rw [h x hx] at hb
    cases hb

/-- What the productions make of a phrase that the grammar derives. After an access the fields are
still read on, and the statements of a list are followed by what ends it. -/
def Finds (o : Options) (ts rest : List Token) : Phrase → Prop
  | .stmts ss => ∀ us, Spaces rest us → Closed us →
    (stmts o ts).results = ss ∧ skipSpaces (stmts o ts).left.val = us
  | .stmt s => StopsStmt rest → (stmt o ts).matched = some (s, rest)
  | .letStmt s => StopsStmt rest → (letStmt o ts).matched = some (s, rest)
  | .exprStmt s => StopsStmt rest → (exprStmt o ts).matched = some (s, rest)
  | .expr e => StopsExpr rest → (expr o ts).matched = some (e, rest)
  | .access e => (access o ts).matched = some (if o.access then fields e rest else (e, rest))
  | .primary e => (primary o ts).matched = some (e, rest)
  | .number e => (number ts).matched = some (e, rest)
  | .block e => (block o ts).matched = some (e, rest)

section Finds

variable {o : Options} {ts ts₁ ts₂ ts₃ ts₄ rest : List Token}

theorem finds_noStmt (ts : List Token) : Finds o ts ts (.stmts []) := by
  intro us ws closed
  have hskip := ws.skipSpaces_eq_of_endsStmt closed.ends
  have hnone : (stmt o (skipSpaces ts)).matched = none := by
    rw [hskip]
    refine matched_stmt_of_head fun x hx => ?_
    rw [closed x hx]
    rfl
  obtain ⟨hresults, hleft⟩ := stmts_of_unmatched hnone
  exact ⟨hresults, by rw [hleft, hskip]⟩

theorem finds_moreStmts {s : Stmt} {ss : List Stmt} (ws : Spaces ts ts₁)
    (head : Derives o (.stmt s) ts₁ ts₂) (tail : Derives o (.stmts ss) ts₂ rest)
    (hs : Finds o ts₁ ts₂ (.stmt s)) (hss : Finds o ts₂ rest (.stmts ss)) :
    Finds o ts rest (.stmts (s :: ss)) := by
  intro us ws' closed
  have hmatched := hs (tail.stopsStmt ws' closed)
  rw [← head.skipSpaces_eq ws] at hmatched
  obtain ⟨hresults, hleft⟩ := stmts_of_matched hmatched
  obtain ⟨hresults', hleft'⟩ := hss us ws' closed
  exact ⟨by rw [hresults, hresults'], by rw [hleft, hleft']⟩

/-- What begins an expression is no binding. -/
theorem matched_stmt_of_exprStmt {s : Stmt} (h : Derives o (.exprStmt s) ts rest) :
    (stmt o ts).matched = (exprStmt o ts).matched := by
  obtain ⟨x, hx, hb⟩ := h.begins
  have hlet : (letStmt o ts).matched = none := by
    refine matched_letStmt_of_head fun hl => ?_
    rw [hx] at hl
    cases hl
    cases hb
  rw [matched_stmt, hlet, Option.none_or]

theorem finds_exprStmt {s : Stmt} (h : Derives o (.exprStmt s) ts rest)
    (hs : Finds o ts rest (.exprStmt s)) : Finds o ts rest (.stmt s) := by
  intro stops
  rw [matched_stmt_of_exprStmt h]
  exact hs stops

theorem matched_binding {first last nameFirst nameLast eqFirst eqLast : Nat} {name : List Char}
    {value : Expr} {stop : Int} (ws : Spaces ts (⟨.ident name, nameFirst, nameLast⟩ :: ts₁))
    (ws₁ : Spaces ts₁ (⟨.operator .equal, eqFirst, eqLast⟩ :: ts₂)) (ws₂ : Spaces ts₂ ts₃)
    (bound : Derives o (.expr value) ts₃ ts₄) (hv : (expr o ts₃).matched = some (value, ts₄))
    (hclose : closeStmt value.span.stop ts₄ = (stop, rest)) :
    (letStmt o (⟨.keyword .letKw, first, last⟩ :: ts)).matched =
      some (.binding (some ⟨Text.ofChars name, ⟨nameFirst, nameLast⟩⟩) value ⟨first, stop⟩, rest) := by
  have hname := ws.skipSpaces_eq (by rintro x ⟨⟩; rfl)
  have hequal := ws₁.skipSpaces_eq (by rintro x ⟨⟩; rfl)
  have hvalue : (expr o (skipSpaces ts₂)).matched = some (value, ts₄) := by
    rw [bound.skipSpaces_eq_expr ws₂]
    exact hv
  rw [matched_letStmt]
  simp only [hname, hequal, hvalue, hclose]

theorem finds_binding {first last nameFirst nameLast eqFirst eqLast : Nat} {name : List Char}
    {value : Expr} {stop : Int} (ws : Spaces ts (⟨.ident name, nameFirst, nameLast⟩ :: ts₁))
    (ws₁ : Spaces ts₁ (⟨.operator .equal, eqFirst, eqLast⟩ :: ts₂)) (ws₂ : Spaces ts₂ ts₃)
    (bound : Derives o (.expr value) ts₃ ts₄) (ending : Ending value.span.stop ts₄ stop rest)
    (hv : Finds o ts₃ ts₄ (.expr value)) :
    Finds o (⟨.keyword .letKw, first, last⟩ :: ts) rest
      (.letStmt (.binding (some ⟨Text.ofChars name, ⟨nameFirst, nameLast⟩⟩) value ⟨first, stop⟩)) := by
  intro stops
  obtain ⟨hclose, hstop⟩ := closeStmt_of_ending ending stops
  exact matched_binding ws ws₁ ws₂ bound (hv hstop) hclose

theorem finds_stated {value : Expr} {stop : Int} (ending : Ending value.span.stop ts₁ stop rest)
    (hv : Finds o ts ts₁ (.expr value)) :
    Finds o ts rest (.exprStmt (.stated value ⟨value.span.start, stop⟩)) := by
  intro stops
  obtain ⟨hclose, hstop⟩ := closeStmt_of_ending ending stops
  rw [matched_exprStmt]
  simp only [hv hstop, hclose]

/-- A phrase found as an access stands as it is when no field follows. -/
theorem matched_access_of_finds {e : Expr} (h : Finds o ts rest (.access e))
    (noDot : headLexeme rest ≠ some (.punct .fullStop)) :
    (access o ts).matched = some (e, rest) := by
  have hf := fields_of_noDot e noDot
  rw [show (access o ts).matched = _ from h, hf]
  split
  next => rfl
  next => rfl

theorem finds_bare {e : Expr} (h : Finds o ts rest (.access e)) : Finds o ts rest (.expr e) := by
  intro stops
  rw [matched_expr, matched_access_of_finds h stops.noDot]
  simp only
  split
  next hs =>
    have hparen := stops.noParen
    rw [hs] at hparen
    exact absurd rfl hparen
  next => rfl

theorem finds_call {called input : Expr} {first last first' last' : Nat}
    (ws : Spaces ts₁ (⟨.bracket ⟨.paren, true⟩, first, last⟩ :: ts₂)) (ws₁ : Spaces ts₂ ts₃)
    (argument : Derives o (.expr input) ts₃ ts₄)
    (ws₂ : Spaces ts₄ (⟨.bracket ⟨.paren, false⟩, first', last'⟩ :: rest))
    (hc : Finds o ts ts₁ (.access called)) (hi : Finds o ts₃ ts₄ (.expr input)) :
    Finds o ts rest (.expr (.call called input ⟨called.span.start, last'⟩)) := by
  intro _
  have hopen := ws.skipSpaces_eq (by rintro x ⟨⟩; rfl)
  have hstop : StopsExpr ts₄ := ws₂.stopsExpr (by rintro x ⟨⟩; rfl)
  have hinput : (expr o (skipSpaces ts₂)).matched = some (input, ts₄) := by
    rw [argument.skipSpaces_eq_expr ws₁]
    exact hi hstop
  have hclose := ws₂.skipSpaces_eq (by rintro x ⟨⟩; rfl)
  rw [matched_expr, matched_access_of_finds hc (ws.noDot nofun)]
  simp only [hopen, hinput, hclose]

theorem finds_field {target : Expr} {dotFirst dotLast first last : Nat} {name : List Char}
    (on : o.access = true)
    (h : Finds o ts (⟨.punct .fullStop, dotFirst, dotLast⟩ :: ⟨.ident name, first, last⟩ :: rest)
      (.access target)) :
    Finds o ts rest (.access (.access target (some ⟨Text.ofChars name, ⟨first, last⟩⟩)
      ⟨target.span.start, last⟩)) := by
  change (access o ts).matched = _ at h ⊢
  rw [if_pos on] at h ⊢
  rw [h, fields]

theorem finds_target {e : Expr} (h : Finds o ts rest (.primary e)) :
    Finds o ts rest (.access e) := by
  change (primary o ts).matched = _ at h
  change (access o ts).matched = _
  rw [matched_access, h]

theorem finds_numeral {e : Expr} (h : Derives o (.number e) ts rest) :
    Finds o ts rest (.primary e) := by
  have hn := matched_number_iff.mpr h
  cases h with
  | @number t run rest ds digits _ _ =>
    cases ds with
    | nil => simp at digits
    | cons d ds =>
      simp only [List.map_cons, List.cons.injEq] at digits
      change (primary o (t :: (run ++ rest))).matched = _
      rw [matched_primary, digits.1]
      exact hn

theorem finds_braced {e : Expr} (on : o.blocks = true) (h : Derives o (.block e) ts rest)
    (hb : Finds o ts rest (.block e)) : Finds o ts rest (.primary e) := by
  cases h with
  | @block ss first last first' last' ts ts₁ rest body ws =>
    change (primary o (⟨.bracket ⟨.curly, true⟩, first, last⟩ :: ts)).matched = _
    rw [matched_primary]
    simp only [on, ↓reduceIte]
    exact hb

theorem finds_block {ss : List Stmt} {first last first' last' : Nat}
    (ws : Spaces ts₁ (⟨.bracket ⟨.curly, false⟩, first', last'⟩ :: rest))
    (hss : Finds o ts ts₁ (.stmts ss)) :
    Finds o (⟨.bracket ⟨.curly, true⟩, first, last⟩ :: ts) rest
      (.block (.block ss ⟨first, last'⟩)) := by
  obtain ⟨hresults, hleft⟩ := hss _ ws (by rintro x ⟨⟩; rfl)
  change (block o (⟨.bracket ⟨.curly, true⟩, first, last⟩ :: ts)).matched = _
  rw [matched_block]
  simp only [hleft, hresults]

end Finds

/-- The productions find what the grammar derives. -/
theorem finds_of_derives {o : Options} {φ : Phrase} {ts rest : List Token}
    (h : Derives o φ ts rest) : Finds o ts rest φ := by
  induction h with
  | noStmt ts => exact finds_noStmt ts
  | moreStmts ws head tail ihs ihss => exact finds_moreStmts ws head tail ihs ihss
  | letStmt _ ih =>
    intro stops
    rw [matched_stmt, ih stops, Option.some_or]
  | exprStmt h ih => exact finds_exprStmt h ih
  | binding ws ws₁ ws₂ bound ending ih => exact finds_binding ws ws₁ ws₂ bound ending ih
  | stated _ ending ih => exact finds_stated ending ih
  | bare _ ih => exact finds_bare ih
  | call _ ws ws₁ argument ws₂ ihc ihi => exact finds_call ws ws₁ argument ws₂ ihc ihi
  | target _ ih => exact finds_target ih
  | field on _ ih => exact finds_field on ih
  | ident | trueLit | falseLit | quoted => exact matched_primary o _ _
  | numeral h _ => exact finds_numeral h
  | braced on h ih => exact finds_braced on h ih
  | number digits maximal fits => exact matched_number_iff.mpr (.number (o := o) digits maximal fits)
  | block _ ws ih => exact finds_block ws ih

end LetLang.Parse
