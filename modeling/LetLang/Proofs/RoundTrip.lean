import LetLang.Proofs.MapSpan
import LetLang.Proofs.Layout
import LetLang.Proofs.Acceptance

/-!
# Writing a tree and parsing it again

The lexemes that a well-formed tree is written with are derived by the grammar as the same tree, with
spans of their own. What is parsed is well-formed, so writing it and parsing the text gives it back up
to spans.
-/
namespace LetLang

open Grammar
open Parse (Options)

/-! ## Tokens with given lexemes -/

theorem exists_token {ts : List Token} {x : Lexeme} {xs : List Lexeme}
    (h : ts.map Token.lexeme = x :: xs) :
    ∃ first last us, ts = ⟨x, first, last⟩ :: us ∧ us.map Token.lexeme = xs := by
  obtain ⟨t, us, rfl, rfl, hus⟩ := List.map_eq_cons_iff.mp h
  exact ⟨t.first, t.last, us, rfl, hus⟩

theorem exists_spaces {ws : List Space} {ts : List Token} {xs : List Lexeme}
    (h : ts.map Token.lexeme = ws.map .space ++ xs) :
    ∃ us, Spaces ts us ∧ us.map Token.lexeme = xs := by
  induction ws generalizing ts with
  | nil => exact ⟨ts, .none ts, h⟩
  | cons w ws ih =>
    obtain ⟨first, last, us, rfl, hus⟩ := exists_token h
    obtain ⟨vs, spaces, hvs⟩ := ih hus
    exact ⟨vs, .more spaces, hvs⟩

/-- The list does not begin with a digit. -/
def NoDigit (xs : List Lexeme) : Prop :=
  ∀ d, xs.head? ≠ some (.digit d)

theorem NoDigit.notDigitFirst {ts : List Token} (h : NoDigit (ts.map Token.lexeme)) :
    ¬ DigitFirst ts := by
  rintro ⟨d, hd⟩
  refine h d ?_
  rw [List.head?_map]
  exact hd

/-! ## Deriving what is written -/

/-- The tokens begin with an expression that differs from `e` in its spans only, and the lexemes `us`
are left. -/
def DerivesLike (o : Options) (e : Expr) (ts : List Token) (us : List Lexeme) : Prop :=
  ∃ e' rest, Derives o (.expr e') ts rest ∧ (e.isCall = false → Derives o (.access e') ts rest) ∧
    rest.map Token.lexeme = us ∧ e'.eraseSpans = e.eraseSpans

theorem DerivesLike.ofAccess {o : Options} {e e' : Expr} {ts rest : List Token} {us : List Lexeme}
    (h : Derives o (.access e') ts rest) (hrest : rest.map Token.lexeme = us)
    (he : e'.eraseSpans = e.eraseSpans) : DerivesLike o e ts us :=
  ⟨e', rest, .bare h, fun _ => h, hrest, he⟩

theorem DerivesLike.ofBlock {o : Options} {ss ss' : List Stmt} {span : Span}
    {first last first' last' : Nat} {ts ts₁ rest : List Token} {us : List Lexeme}
    (on : o.blocks = true) (body : Derives o (.stmts ss') ts ts₁)
    (ws : Spaces ts₁ (⟨.bracket ⟨.curly, false⟩, first', last'⟩ :: rest))
    (hrest : rest.map Token.lexeme = us) (hss : Stmt.eraseSpansAll ss' = Stmt.eraseSpansAll ss) :
    DerivesLike o (.block ss span) (⟨.bracket ⟨.curly, true⟩, first, last⟩ :: ts) us := by
  refine .ofAccess (.target (.braced on (.block body ws))) hrest ?_
  simp only [Expr.eraseSpans, Expr.mapSpan, Expr.block.injEq]
  exact ⟨hss, trivial⟩

theorem derives_numeral {o : Options} (n : UInt32) {ts : List Token} {us : List Lexeme}
    (hts : ts.map Token.lexeme = (Decimal.digits n.toNat).map .digit ++ us) (hus : NoDigit us) :
    ∃ span rest, Derives o (.access (.number n span)) ts rest ∧ rest.map Token.lexeme = us := by
  obtain ⟨run, rest, rfl, hrun, rfl⟩ := List.map_eq_append_iff.mp hts
  have hfits : Decimal.value 0 (Decimal.digits n.toNat) ≤ 0xFFFFFFFF := by
    have := n.toNat_lt
    rw [Decimal.value_digits]
    omega
  have hvalue : UInt32.ofNat (Decimal.value 0 (Decimal.digits n.toNat)) = n := by
    rw [Decimal.value_digits, UInt32.ofNat_toNat]
  cases run with
  -- a numeral has at least one digit, also that of zero
  | nil => exact absurd (by simpa using hrun.symm) (Decimal.digits_ne_nil n.toNat)
  | cons t run =>
    have derived := Derives.number (o := o) hrun hus.notDigitFirst hfits
    rw [hvalue] at derived
    exact ⟨_, rest, .target (.numeral derived), rfl⟩

/-- A space before a first statement does not matter. -/
theorem derives_after_space {o : Options} {s : Stmt} {ss : List Stmt} {w : Space} {first last : Nat}
    {ts rest : List Token} (h : Derives o (.stmts (s :: ss)) ts rest) :
    Derives o (.stmts (s :: ss)) (⟨.space w, first, last⟩ :: ts) rest := by
  cases h with
  | moreStmts ws head tail => exact .moreStmts (.more ws) head tail

mutual

/-- Tokens with the lexemes of an expression are derived as that expression, up to spans. -/
theorem Expr.derives_lexemes {o : Options} (style : Style) (ws : List Space) :
    ∀ {e : Expr}, e.WellFormed o → ∀ {ts : List Token} {us : List Lexeme},
      ts.map Token.lexeme = e.lexemes style ws ++ us → NoDigit us →
      DerivesLike o e ts us
  | .absent, h, _, _, _, _ => absurd h id
  | .ident i, h, ts, us, hts, _ => by
    obtain ⟨cs, hname, -⟩ := h
    obtain ⟨first, last, rest, rfl, hrest⟩ := exists_token hts
    refine .ofAccess (.target (.ident _ first last rest)) hrest ?_
    simp [Expr.eraseSpans, Expr.mapSpan, Ident.mapSpan, hname]
  | .number n _, _, ts, us, hts, hus => by
    obtain ⟨span, rest, derived, hrest⟩ := derives_numeral n hts hus
    exact .ofAccess derived hrest rfl
  | .bool b _, _, ts, us, hts, _ => by
    obtain ⟨first, last, rest, rfl, hrest⟩ := exists_token hts
    cases b with
    | true => exact .ofAccess (.target (.trueLit first last rest)) hrest rfl
    | false => exact .ofAccess (.target (.falseLit first last rest)) hrest rfl
  | .string value quote _, h, ts, us, hts, _ => by
    obtain ⟨q, cs, rfl, rfl, -⟩ := h
    rw [Expr.lexemes, Quote.ofDelimiter_sourceChar, Text.plain_ofChars] at hts
    obtain ⟨first, last, rest, rfl, hrest⟩ := exists_token hts
    exact .ofAccess (.target (.quoted q cs first last rest)) hrest rfl
  | .call called input _, h, ts, us, hts, _ => by
    obtain ⟨hcall, hcalled, hinput⟩ := h
    rw [Expr.lexemes, List.append_assoc, List.cons_append, List.append_assoc] at hts
    obtain ⟨called', ts₁, -, callee, hts₁, hecalled⟩ :=
      Expr.derives_lexemes style ws hcalled hts nofun
    obtain ⟨first, last, ts₂, rfl, hts₂⟩ := exists_token hts₁
    obtain ⟨input', ts₃, argument, -, hts₃, heinput⟩ :=
      Expr.derives_lexemes style ws hinput hts₂ nofun
    obtain ⟨first', last', rest, rfl, hrest⟩ := exists_token hts₃
    refine ⟨_, rest, .call (callee hcall) (.none _) (.none _) argument (.none _), nofun, hrest, ?_⟩
    simp only [Expr.eraseSpans, Expr.mapSpan, Expr.call.injEq]
    exact ⟨hecalled, heinput, trivial⟩
  | .access target none _, h, _, _, _, _ => by
    obtain ⟨-, -, -, i, hi, -⟩ := h
    cases hi
  | .access target (some field) _, h, ts, us, hts, _ => by
    obtain ⟨on, hcall, htarget, i, hi, cs, hname, -⟩ := h
    cases hi
    rw [Expr.lexemes, List.append_assoc] at hts
    obtain ⟨target', ts₁, -, object, hts₁, hetarget⟩ :=
      Expr.derives_lexemes style ws htarget hts nofun
    obtain ⟨dotFirst, dotLast, ts₂, rfl, hts₂⟩ := exists_token hts₁
    obtain ⟨first, last, rest, rfl, hrest⟩ := exists_token hts₂
    refine .ofAccess (.field on (object hcall)) hrest ?_
    simp only [Expr.eraseSpans, Expr.mapSpan, Expr.access.injEq]
    exact ⟨hetarget, by simp [Ident.mapSpan, hname], trivial⟩
  | .block [] _, h, ts, us, hts, _ => by
    obtain ⟨on, -⟩ := h
    obtain ⟨first, last, ts₁, rfl, hts₁⟩ := exists_token hts
    obtain ⟨first', last', rest, rfl, hrest⟩ := exists_token hts₁
    exact .ofBlock on (.noStmt _) (.none _) hrest rfl
  | .block (s :: ss) _, h, ts, us, hts, _ => by
    obtain ⟨on, hss⟩ := h
    cases style with
    | singleLine =>
      rw [Expr.lexemes, List.cons_append, List.append_assoc] at hts
      obtain ⟨first, last, ts₁, rfl, hts₁⟩ := exists_token hts
      obtain ⟨ss', ts₂, body, hts₂, hess⟩ := Stmt.derives_lexemesAll .singleLine [] hss hts₁
      obtain ⟨first', last', rest, rfl, hrest⟩ := exists_token hts₂
      exact .ofBlock on body (.none _) hrest hess
    | multiLine =>
      rw [Expr.lexemes] at hts
      simp only [List.cons_append, List.append_assoc, List.nil_append] at hts
      obtain ⟨first, last, ts₁, rfl, hts₁⟩ := exists_token hts
      obtain ⟨_, _, ts₂, rfl, hts₂⟩ := exists_token hts₁
      obtain ⟨ss', ts₃, body, hts₃, hess⟩ :=
        Stmt.derives_lexemesAll .multiLine (ws ++ [.tab]) hss hts₂
      obtain ⟨_, _, ts₄, rfl, hts₄⟩ := exists_token hts₃
      obtain ⟨ts₅, margin, hts₅⟩ := exists_spaces hts₄
      obtain ⟨first', last', rest, rfl, hrest⟩ := exists_token hts₅
      cases ss' with
      | nil => simp [Stmt.eraseSpansAll, Stmt.mapSpanAll] at hess
      | cons s' ss' =>
        exact .ofBlock on (derives_after_space body) (.more margin) hrest hess

theorem Stmt.derives_lexemes {o : Options} (style : Style) (ws : List Space) :
    ∀ {s : Stmt}, s.WellFormed o → ∀ {ts : List Token} {us : List Lexeme},
      ts.map Token.lexeme = s.lexemes style ws ++ us →
      ∃ s' rest, Derives o (.stmt s') ts rest ∧ rest.map Token.lexeme = us ∧
        s'.eraseSpans = s.eraseSpans
  | .absent, h, _, _, _ => absurd h id
  | .binding none _ _, h, _, _, _ => by
    obtain ⟨⟨i, hi, -⟩, -⟩ := h
    cases hi
  | .binding (some name) value _, h, ts, us, hts => by
    obtain ⟨⟨i, hi, cs, hname, -⟩, hvalue⟩ := h
    cases hi
    rw [Stmt.lexemes] at hts
    simp only [List.cons_append, List.append_assoc, List.nil_append] at hts
    obtain ⟨first, last, ts₁, rfl, hts₁⟩ := exists_token hts
    obtain ⟨_, _, ts₂, rfl, hts₂⟩ := exists_token hts₁
    obtain ⟨nameFirst, nameLast, ts₃, rfl, hts₃⟩ := exists_token hts₂
    obtain ⟨_, _, ts₄, rfl, hts₄⟩ := exists_token hts₃
    obtain ⟨eqFirst, eqLast, ts₅, rfl, hts₅⟩ := exists_token hts₄
    obtain ⟨_, _, ts₆, rfl, hts₆⟩ := exists_token hts₅
    obtain ⟨value', ts₇, bound, -, hts₇, hevalue⟩ :=
      Expr.derives_lexemes style ws hvalue hts₆ nofun
    obtain ⟨_, _, rest, rfl, hrest⟩ := exists_token hts₇
    refine ⟨_, rest, .letStmt (.binding (.more (.none _)) (.more (.none _)) (.more (.none _))
      bound (.semicolon (.none _))), hrest, ?_⟩
    simp only [Stmt.eraseSpans, Stmt.mapSpan, Stmt.binding.injEq]
    exact ⟨by simp [Ident.mapSpan, hname], hevalue, trivial⟩
  | .stated value _, h, ts, us, hts => by
    rw [Stmt.lexemes, List.append_assoc] at hts
    obtain ⟨value', ts₁, said, -, hts₁, hevalue⟩ := Expr.derives_lexemes style ws h hts nofun
    obtain ⟨_, _, rest, rfl, hrest⟩ := exists_token hts₁
    refine ⟨_, rest, .exprStmt (.stated said (.semicolon (.none _))),
      hrest, ?_⟩
    simp only [Stmt.eraseSpans, Stmt.mapSpan, Stmt.stated.injEq]
    exact ⟨hevalue, trivial⟩

theorem Stmt.derives_lexemesAll {o : Options} (style : Style) (ws : List Space) :
    ∀ {ss : List Stmt}, Stmt.AllWellFormed o ss → ∀ {ts : List Token} {us : List Lexeme},
      ts.map Token.lexeme = Stmt.lexemesAll style ws ss ++ us →
      ∃ ss' rest, Derives o (.stmts ss') ts rest ∧ rest.map Token.lexeme = us ∧
        Stmt.eraseSpansAll ss' = Stmt.eraseSpansAll ss
  | [], _, ts, _, hts => ⟨[], ts, .noStmt ts, hts, rfl⟩
  | s :: ss, h, ts, us, hts => by
    obtain ⟨hs, hss⟩ := h
    rw [Stmt.lexemesAll, List.append_assoc, List.append_assoc] at hts
    obtain ⟨ts₁, margin, hts₁⟩ := exists_spaces hts
    obtain ⟨s', ts₂, head, hts₂, hes⟩ := Stmt.derives_lexemes style ws hs hts₁
    obtain ⟨ss', rest, tail, hrest, hess⟩ := Stmt.derives_lexemesMore style ws hss hts₂
    refine ⟨s' :: ss', rest, .moreStmts margin head tail, hrest, ?_⟩
    simp only [Stmt.eraseSpansAll, Stmt.mapSpanAll, List.cons.injEq]
    exact ⟨hes, hess⟩

theorem Stmt.derives_lexemesMore {o : Options} (style : Style) (ws : List Space) :
    ∀ {ss : List Stmt}, Stmt.AllWellFormed o ss → ∀ {ts : List Token} {us : List Lexeme},
      ts.map Token.lexeme = Stmt.lexemesMore style ws ss ++ us →
      ∃ ss' rest, Derives o (.stmts ss') ts rest ∧ rest.map Token.lexeme = us ∧
        Stmt.eraseSpansAll ss' = Stmt.eraseSpansAll ss
  | [], _, ts, _, hts => ⟨[], ts, .noStmt ts, hts, rfl⟩
  | s :: ss, h, ts, us, hts => by
    obtain ⟨hs, hss⟩ := h
    rw [Stmt.lexemesMore, List.cons_append, List.append_assoc, List.append_assoc] at hts
    obtain ⟨_, _, ts₁, rfl, hts₁⟩ := exists_token hts
    obtain ⟨ts₂, margin, hts₂⟩ := exists_spaces hts₁
    obtain ⟨s', ts₃, head, hts₃, hes⟩ := Stmt.derives_lexemes style ws hs hts₂
    obtain ⟨ss', rest, tail, hrest, hess⟩ := Stmt.derives_lexemesMore style ws hss hts₃
    refine ⟨s' :: ss', rest, .moreStmts (.more margin) head tail, hrest, ?_⟩
    simp only [Stmt.eraseSpansAll, Stmt.mapSpanAll, List.cons.injEq]
    exact ⟨hes, hess⟩

end

/-! ## Parsing what is written -/

theorem lexemes_eq_nil {ts : List Token} (h : ts.map Token.lexeme = []) : ts = [] :=
  List.map_eq_nil_iff.mp h

theorem text_program {o : Options} {p : Program} (h : Stmt.AllWellFormed o p.stmts) (style : Style)
    (ws : List Space) :
    (Node.program p).text? style (Text.ofSpaces ws) =
      some (Text.ofChars (spellAll (Stmt.lexemesAll style ws p.stmts))) := by
  have hwrite := Stmt.writeAll_lexemes style ws h []
  rw [List.append_nil] at hwrite
  exact hwrite

theorem text_expr {o : Options} {x : Expr} (h : x.WellFormed o) (style : Style) (ws : List Space) :
    (Node.expr x).text? style (Text.ofSpaces ws) =
      some (Text.ofChars (spellAll (x.lexemes style ws))) := by
  have hwrite := Expr.write_lexemes style ws h []
  rw [List.append_nil] at hwrite
  exact hwrite

/-- The text of a well-formed program is parsed as that program, up to spans. -/
theorem parse_text_of_wellFormed {o : Options} {p : Program} (h : Stmt.AllWellFormed o p.stmts)
    (style : Style) (ws : List Space) :
    ∃ text, (Node.program p).text? style (Text.ofSpaces ws) = some text ∧
      (parse o text.toSource).error? = none ∧
      (parse o text.toSource).tree.eraseSpans = p.eraseSpans := by
  refine ⟨_, text_program h style ws, ?_⟩
  have hreadable : Readable (Stmt.lexemesAll style ws p.stmts ++ []) :=
    Stmt.readable_lexemesAll style ws h trivial
  rw [List.append_nil] at hreadable
  obtain ⟨ts, reads, hts⟩ := exists_readsAll_spellAll hreadable
  rw [← List.append_nil (Stmt.lexemesAll style ws p.stmts)] at hts
  obtain ⟨ss, rest, derived, hrest, hss⟩ := Stmt.derives_lexemesAll style ws h hts
  rw [lexemes_eq_nil hrest] at derived
  have isProgram : IsProgram o ⟨ss⟩ ts := ⟨[], derived, .none []⟩
  obtain ⟨htree, herror⟩ := parse_of_isProgram reads isProgram
  rw [Text.toSource_ofChars]
  refine ⟨herror, ?_⟩
  rw [htree]
  exact congrArg Program.mk hss

theorem parseExpression_text_of_wellFormed {o : Options} {x : Expr} (h : x.WellFormed o)
    (style : Style) (ws : List Space) :
    ∃ text, (Node.expr x).text? style (Text.ofSpaces ws) = some text ∧
      (parseExpression o text.toSource).error? = none ∧
      ∃ y, (parseExpression o text.toSource).tree = some y ∧ y.eraseSpans = x.eraseSpans := by
  refine ⟨_, text_expr h style ws, ?_⟩
  have hreadable : Readable (x.lexemes style ws ++ []) :=
    Expr.readable_lexemes style ws h nofun trivial
  rw [List.append_nil] at hreadable
  obtain ⟨ts, reads, hts⟩ := exists_readsAll_spellAll hreadable
  rw [← List.append_nil (x.lexemes style ws)] at hts
  obtain ⟨y, rest, derived, -, hrest, hy⟩ := Expr.derives_lexemes style ws h hts nofun
  rw [lexemes_eq_nil hrest] at derived
  have isExpression : IsExpression o y ts := ⟨ts, [], .none ts, derived, .none []⟩
  obtain ⟨htree, herror⟩ := parseExpression_complete_iff.mpr ⟨ts, reads, isExpression⟩
  rw [Text.toSource_ofChars]
  exact ⟨herror, y, htree, hy⟩

/-! ## What is parsed is well-formed -/

theorem wellFormed_parse (o : Options) (source : Source) :
    Stmt.AllWellFormed o (parse o source).tree.stmts :=
  (Parse.derives_stmts o (Cursor.start source).tokens).wellFormed (Cursor.start source).spellable_tokens

theorem wellFormed_parseExpression {o : Options} {source : Source} {x : Expr}
    (h : (parseExpression o source).tree = some x) : x.WellFormed o := by
  obtain ⟨left, hm⟩ := matched_of_tree h
  refine (Parse.derives_expr hm).wellFormed fun t ht => ?_
  exact (Cursor.start source).spellable_tokens t ((Parse.spaces_skipSpaces _).suffix.subset ht)

theorem exists_ofSpaces {indent : Text}
    (blank : ∀ g ∈ indent, g = .char ' ' ∨ g = .char '\n' ∨ g = .char '\t') :
    ∃ ws, indent = Text.ofSpaces ws := by
  induction indent with
  | nil => exact ⟨[], rfl⟩
  | cons g indent ih =>
    obtain ⟨ws, rfl⟩ := ih fun g' hg => blank g' (List.mem_cons_of_mem g hg)
    rcases blank g List.mem_cons_self with rfl | rfl | rfl
    · exact ⟨.blank :: ws, rfl⟩
    · exact ⟨.newline :: ws, rfl⟩
    · exact ⟨.tab :: ws, rfl⟩

/-- Writing what was parsed, in any style and behind any indentation, and parsing the text again
gives the same tree up to spans and no error. This holds for the statements before an error too. -/
theorem parse_text_of_parse (o : Options) (code : Int) {indent : Text}
    (blank : ∀ g ∈ indent, g = .char ' ' ∨ g = .char '\n' ∨ g = .char '\t') (source : Source) :
    (∃ text, (Node.program (parse o source).tree).text? (Style.ofCode code) indent = some text ∧
      (parse o text.toSource).error? = none ∧
      (parse o text.toSource).tree.eraseSpans = (parse o source).tree.eraseSpans) ∧
    ∀ x, (parseExpression o source).tree = some x →
      ∃ text, (Node.expr x).text? (Style.ofCode code) indent = some text ∧
        (parseExpression o text.toSource).error? = none ∧
        ∃ y, (parseExpression o text.toSource).tree = some y ∧ y.eraseSpans = x.eraseSpans := by
  obtain ⟨ws, rfl⟩ := exists_ofSpaces blank
  constructor
  · exact parse_text_of_wellFormed (wellFormed_parse o source) (Style.ofCode code) ws
  · intro x hx
    exact parseExpression_text_of_wellFormed (wellFormed_parseExpression hx) (Style.ofCode code) ws

theorem parse_text_of_parse_unclosed_call :
    (parse .all [.char 'a', .char '(', .char '1']).error? = some (.program ⟨1, 1⟩) ∧
    (∃ text, (Node.program (parse .all [.char 'a', .char '(', .char '1']).tree).text?
        (Style.ofCode 0) [.char '\t'] = some text ∧
      (parse .all text.toSource).error? = none ∧
      (parse .all text.toSource).tree.eraseSpans =
        (parse .all [.char 'a', .char '(', .char '1']).tree.eraseSpans) ∧
    ∃ x, (parseExpression .all [.char 'a', .char '(', .char '1']).tree = some x ∧
      ∃ text, (Node.expr x).text? (Style.ofCode 0) [.char '\t'] = some text ∧
        (parseExpression .all text.toSource).error? = none ∧
        ∃ y, (parseExpression .all text.toSource).tree = some y ∧ y.eraseSpans = x.eraseSpans := by
  have blank : ∀ g ∈ [Glyph.char '\t'], g = .char ' ' ∨ g = .char '\n' ∨ g = .char '\t' := by decide
  have hsome : (parseExpression .all [.char 'a', .char '(', .char '1']).tree.isSome = true := by
    decide +kernel
  obtain ⟨x, hx⟩ := Option.isSome_iff_exists.mp hsome
  obtain ⟨hprogram, hexpr⟩ := parse_text_of_parse .all 0 blank [.char 'a', .char '(', .char '1']
  exact ⟨by decide +kernel, hprogram, x, hx, hexpr x hx⟩

end LetLang
