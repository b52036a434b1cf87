import LetLang.Proofs.Lossless
import LetLang.Proofs.Split

/-!
# Programs one after another

A program whose last statement is closed by a semicolon can be followed by any source: nothing in it is
read differently because of what comes behind. So what the two sources are parsed as is put together from
what each is parsed as alone, with the second one moved behind the first, and where the second one is not
parsed to its end the whole is not either.

Two things have to be shown about the place where the sources meet. No token reaches across it, since
the last one before it is a space or a semicolon; and no phrase does, since the semicolon ends a
statement for good.
-/
namespace LetLang

open Grammar
open Parse (Options skipSpaces closeStmt)

/-! ## Tokens across the seam -/

/-- A lexeme is read off a longer source as well, unless it is a word that reaches to the end. -/
theorem scan_append {rs : Source} {x : Lexeme} {n : Nat} (h : scan rs = some (x, n))
    (seam : x.isWord = true → n < rs.length) (more : Source) :
    scan (rs ++ more) = some (x, n) := by
  obtain ⟨piece, rest, rfl, hlength, hspell, happart⟩ := scan_splits h
  have hwritten : piece.map SourceChar.written = x.spelling.map .char := by
    rw [← hspell, spell, List.map_map]
    rfl
  have hsize : x.spelling.length = n := by
    rw [← hspell, spell, List.length_map, hlength]
  have hrest : x.isWord = true →
      ∀ r, ((rest ++ more).map SourceChar.written).head? = some r → r.inWord = false := by
    intro hword r hr
    have hlt := seam hword
    rw [List.length_append, hlength] at hlt
    cases rest with
    | nil => exact absurd hlt (Nat.lt_irrefl n)
    | cons s rest =>
      cases hr
      rw [SourceChar.inWord_written]
      exact happart hword s rfl
  rw [← scan_written, List.append_assoc, List.map_append, hwritten,
    scan_spelling (spellable_of_scan h) hrest, hsize]

namespace Cursor

theorem next?_append {c d : Cursor} {t : Token} (h : c.next? = some (t, d))
    (seam : t.lexeme.isWord = true → d.pos < c.source.length) (more : Source) :
    next? ⟨c.source ++ more, c.pos⟩ = some (t, ⟨c.source ++ more, d.pos⟩) := by
  obtain ⟨hsource, hlt, hle⟩ := next?_advances h
  obtain ⟨x, n, hscan, rfl, rfl⟩ := scan_of_next? h
  simp only at hlt hle seam
  have hrest : rest ⟨c.source ++ more, c.pos⟩ = c.rest ++ more :=
    List.drop_append_of_le_length (show c.pos ≤ c.source.length by omega)
  have hseam : x.isWord = true → n < c.rest.length := by
    intro hword
    have hinside := seam hword
    rw [rest, List.length_drop]
    omega
  rw [next?, hrest, scan_append hscan hseam more]

/-- A run is a run of a longer source as well, unless it ends with a word. -/
theorem Run.append {c d : Cursor} {ts : List Token} (run : Run c ts d)
    (seam : ∀ t, ts.getLast? = some t → t.lexeme.isWord = false) (more : Source) :
    Run ⟨c.source ++ more, c.pos⟩ ts ⟨c.source ++ more, d.pos⟩ := by
  induction run with
  | stay => exact .stay _
  | @step c d e t ts first others ih =>
    have hsource := (next?_advances first).1
    have hseam : t.lexeme.isWord = true → d.pos < c.source.length := by
      intro hword
      cases others with
      | stay =>
        rw [seam t rfl] at hword
        cases hword
      | step next tail =>
        have hnext := next?_advances next
        have hbound := hnext.2.2
        rw [hnext.1, hsource] at hbound
        omega
    have hlast : ∀ u, ts.getLast? = some u → u.lexeme.isWord = false := by
      intro u hu
      refine seam u ?_
      rw [List.getLast?_cons, hu]
      rfl
    have hrest := ih hlast
    rw [hsource] at hrest
    exact .step (next?_append first hseam more) hrest

/-- The characters that are left do not depend on those before the cursor. -/
theorem rest_prepend (front : Source) (c : Cursor) :
    rest ⟨front ++ c.source, c.pos + front.length⟩ = c.rest := by
  rw [rest, Nat.add_comm, List.drop_length_add_append, rest]

theorem tokens_prepend (front : Source) (c : Cursor) :
    tokens ⟨front ++ c.source, c.pos + front.length⟩ =
      c.tokens.map (Token.relabel (· + front.length) (· + front.length)) := by
  rw [tokens, rest_prepend, tokensFrom_add, tokens]

/-- A run behind other characters is the same run, counted from their start. -/
theorem Run.prepend {c d : Cursor} {ts : List Token} (run : Run c ts d) (front : Source) :
    Run ⟨front ++ c.source, c.pos + front.length⟩
      (ts.map (Token.relabel (· + front.length) (· + front.length)))
      ⟨front ++ c.source, d.pos + front.length⟩ := by
  induction run with
  | stay => exact .stay _
  | @step c d e t ts first others ih =>
    rw [(next?_advances first).1] at ih
    refine .step (d := ⟨front ++ c.source, d.pos + front.length⟩) ?_ ih
    obtain ⟨x, n, hscan, rfl, rfl⟩ := scan_of_next? first
    have hwidth := (scan_width hscan).1
    rw [next?, rest_prepend, hscan]
    simp only [Token.relabel, Option.some.injEq, Prod.mk.injEq, Token.mk.injEq, Cursor.mk.injEq, true_and]
    omega

end Cursor

/-! ## How a statement ends -/

namespace Grammar

/-- The tokens before `rest` end with one that is neither a space nor a semicolon. -/
def EndsOpen (ts rest : List Token) : Prop :=
  ∃ t, t :: rest <:+ ts ∧ t.lexeme.isSpace = false ∧ t.lexeme ≠ .punct .semicolon

/-- Nothing but spaces stands behind the last semicolon, or there is nothing else at all. -/
def Terminated (ts : List Token) : Prop :=
  ∀ rest, Spaces rest [] → ¬ EndsOpen ts rest

section Ends

variable {o : Options} {φ : Phrase} {s : Stmt} {ts us rest : List Token}

theorem EndsOpen.mono (h : EndsOpen ts rest) (hts : ts <:+ us) : EndsOpen us rest := by
  obtain ⟨t, ht, hopen⟩ := h
  exact ⟨t, ht.trans hts, hopen⟩

theorem Terminated.suffix (h : Terminated us) (hts : ts <:+ us) : Terminated ts :=
  fun rest ws hopen => h rest ws (hopen.mono hts)

/-- An expression does not end with a space or a semicolon. -/
def Phrase.Ends (ts rest : List Token) : Phrase → Prop
  | .stmts _ | .stmt _ | .letStmt _ | .exprStmt _ => True
  | .expr _ | .access _ | .primary _ | .number _ | .block _ => EndsOpen ts rest

theorem Derives.ends (h : Derives o φ ts rest) : φ.Ends ts rest := by
  induction h with
  | noStmt | moreStmts | letStmt | exprStmt | binding | stated => trivial
  | bare _ ih => exact ih
  | target _ ih => exact ih
  | numeral _ ih => exact ih
  | braced _ _ ih => exact ih
  | call callee ws ws₁ argument ws₂ _ _ =>
    have hinput := ws₁.suffix.trans (ws.suffix_tail.trans callee.suffix)
    exact ⟨_, ws₂.suffix.trans (argument.suffix.trans hinput), rfl, nofun⟩
  | field _ object _ => exact ⟨_, (List.suffix_cons _ _).trans object.suffix, rfl, nofun⟩
  | ident | trueLit | falseLit | quoted => exact ⟨_, List.suffix_refl _, rfl, nofun⟩
  | @number t run rest ds digits _ _ =>
    obtain ⟨init, u, hu⟩ : ∃ init u, t :: run = init ++ [u] :=
      ⟨_, _, (List.dropLast_append_getLast (List.cons_ne_nil t run)).symm⟩
    have hmem : u.lexeme ∈ ds.map Lexeme.digit := by
      rw [← digits, hu]
      simp
    obtain ⟨d, -, hd⟩ := List.mem_map.mp hmem
    refine ⟨u, ⟨init, ?_⟩, by rw [← hd]; rfl, by rw [← hd]; exact nofun⟩
    rw [← List.cons_append, hu, List.append_assoc]
    rfl
  | block body ws _ =>
    exact ⟨_, ws.suffix.trans (body.suffix.trans (List.suffix_cons _ _)), rfl, nofun⟩

/-- A statement that ends with a semicolon is read whatever follows; any other ends with the last token
of its expression. -/
theorem Derives.stmt_ends (h : Derives o (.stmt s) ts rest) :
    (∃ p, ts = p ++ rest ∧ ∀ rest', (Parse.stmt o (p ++ rest')).matched = some (s, rest')) ∨
      EndsOpen ts rest := by
  cases h with
  | letStmt h =>
    cases h with
    | @binding first last _ _ _ _ _ value _ _ _ _ _ _ _ ws ws₁ ws₂ bound ending =>
      cases ending with
      | none =>
        right
        have hvalue := ws₂.suffix.trans (ws₁.suffix_tail.trans ws.suffix_tail)
        exact EndsOpen.mono bound.ends (hvalue.trans (List.suffix_cons _ _))
      | semicolon ws₃ =>
        left
        obtain ⟨e, rfl, he⟩ := ws₃.context_token
        obtain ⟨d, rfl, hd⟩ := bound.context
        obtain ⟨c, rfl, hc⟩ := ws₂.context
        obtain ⟨b, rfl, hb⟩ := ws₁.context_token
        obtain ⟨a, rfl, ha⟩ := ws.context_token
        refine ⟨⟨.keyword .letKw, first, last⟩ :: (a ++ (b ++ (c ++ (d ++ e)))), by simp,
          fun rest' => ?_⟩
        have hstop : StopsExpr (e ++ rest') := (he rest').1.stopsExpr (by rintro x ⟨⟩; rfl)
        have bound' := hd _ (he rest').2
        rw [List.cons_append, List.append_assoc, List.append_assoc, List.append_assoc, List.append_assoc,
          Parse.matched_stmt, Parse.matched_binding (ha _).1 (hb _).1 (hc _) bound'
            (Parse.finds_of_derives bound' hstop) (Parse.closeStmt_of_spaces _ (he rest').1),
          Option.some_or]
  | exprStmt h =>
    cases h with
    | stated said ending =>
      cases ending with
      | none => exact .inr said.ends
      | semicolon ws =>
        left
        obtain ⟨b, rfl, hb⟩ := ws.context_token
        obtain ⟨a, rfl, ha⟩ := said.context
        refine ⟨a ++ b, by simp, fun rest' => ?_⟩
        have hstop : StopsExpr (b ++ rest') := (hb rest').1.stopsExpr (by rintro x ⟨⟩; rfl)
        have said' := ha _ (hb rest').2
        rw [List.append_assoc, Parse.matched_stmt_of_exprStmt (.stated said' (.semicolon (hb rest').1)),
          Parse.matched_exprStmt, Parse.finds_of_derives said' hstop]
        simp only [Parse.closeStmt_of_spaces _ (hb rest').1]

end Ends

/-! ## Statements across the seam -/

theorem Spaces.append {ts us : List Token} (ws : Spaces ts us) (more : List Token) :
    Spaces (ts ++ more) (us ++ more) := by
  obtain ⟨p, rfl, hp⟩ := ws.context
  rw [List.append_assoc]
  exact hp _

theorem Spaces.skipSpaces_both {ts us : List Token} (ws : Spaces ts us) :
    skipSpaces ts = skipSpaces us := by
  induction ws with
  | none => rfl
  | more _ ih => exact ih

theorem headLexeme_append {ts : List Token} {x : Lexeme} (h : headLexeme ts = some x)
    (more : List Token) : headLexeme (ts ++ more) = some x := by
  cases ts with
  | nil => cases h
  | cons t ts => exact h

end Grammar

namespace Parse

variable {o : Options}

/-- Spaces in front do not change what statements are read. -/
theorem stmts_of_skipSpaces_eq {ts us : List Token} (h : skipSpaces ts = skipSpaces us) :
    (stmts o ts).results = (stmts o us).results ∧
      skipSpaces (stmts o ts).left.val = skipSpaces (stmts o us).left.val := by
  cases hm : (stmt o (skipSpaces us)).matched with
  | none =>
    obtain ⟨hresults, hleft⟩ := stmts_of_unmatched (h ▸ hm)
    obtain ⟨hresults', hleft'⟩ := stmts_of_unmatched hm
    rw [hresults, hresults', hleft, hleft']
    exact ⟨rfl, h⟩
  | some m =>
    obtain ⟨s, left⟩ := m
    obtain ⟨hresults, hleft⟩ := stmts_of_matched (h ▸ hm)
    obtain ⟨hresults', hleft'⟩ := stmts_of_matched hm
    rw [hresults, hresults', hleft, hleft']
    exact ⟨rfl, rfl⟩

/-- The first of some statements is read before anything, if the tokens of the statements are
terminated. -/
theorem matched_stmt_append {s : Stmt} {ss : List Stmt} {ts ts' left : List Token}
    (head : Derives o (.stmt s) ts ts') (tail : Derives o (.stmts ss) ts' left)
    (ws : Spaces left []) (terminated : Terminated ts) (more : List Token) :
    (stmt o (ts ++ more)).matched = some (s, ts' ++ more) := by
  rcases head.stmt_ends with ⟨p, rfl, hp⟩ | hopen
  · rw [List.append_assoc]
    exact hp _
  · cases tail with
    | noStmt => exact absurd hopen (terminated ts' ws)
    | moreStmts ws' next _ =>
      obtain ⟨x, hx, hb⟩ := next.begins
      obtain ⟨p, rfl, hp⟩ := head.context
      have hdigit : NoNewDigit ts' (ts' ++ more) := by
        cases ts' with
        | nil =>
          cases ws'
          cases hx
        | cons t ts' => exact noNewDigit_cons t ts' _
      have stops : StopsStmt (ts' ++ more) :=
        (ws'.append more).stopsStmt (endsStmt_of_head (headLexeme_append hx more) hb)
      rw [List.append_assoc]
      exact finds_of_derives (hp _ hdigit) stops

/-- Behind terminated statements reading goes on as if it began there. -/
theorem stmts_append {ss : List Stmt} {ts left : List Token} (h : Derives o (.stmts ss) ts left)
    (ws : Spaces left []) (terminated : Terminated ts) (more : List Token) :
    (stmts o (ts ++ more)).results = ss ++ (stmts o more).results ∧
      skipSpaces (stmts o (ts ++ more)).left.val = skipSpaces (stmts o more).left.val := by
  induction ss generalizing ts with
  | nil =>
    cases h
    exact stmts_of_skipSpaces_eq (ws.append more).skipSpaces_both
  | cons s ss ih =>
    cases h with
    | @moreStmts _ _ _ ts₁ ts₂ _ ws₁ head tail =>
      have hmatched := matched_stmt_append head tail ws (terminated.suffix ws₁.suffix) more
      have hskip : skipSpaces (ts ++ more) = ts₁ ++ more := by
        obtain ⟨x, hx, hb⟩ := head.begins
        exact (ws₁.append more).skipSpaces_eq_of_endsStmt
          (endsStmt_of_head (headLexeme_append hx more) hb)
      rw [← hskip] at hmatched
      obtain ⟨hresults, hleft⟩ := stmts_of_matched hmatched
      obtain ⟨hresults', hleft'⟩ := ih tail (terminated.suffix (head.suffix.trans ws₁.suffix))
      rw [hresults, hleft, hresults', hleft']
      exact ⟨rfl, rfl⟩

end Parse

/-! ## The last character of a program -/

/-- A character that is a space by itself. -/
def SourceChar.isSpace (r : SourceChar) : Bool :=
  r.lexeme?.any Lexeme.isSpace

/-- The last character of a source that is no space, if there is one. -/
def lastSolid? (source : Source) : Option SourceChar :=
  source.reverse.find? fun r => !r.isSpace

/-- The source is all spaces, or its last character that is none is a semicolon. -/
def EndsWithSemicolon (source : Source) : Prop :=
  lastSolid? source = none ∨ lastSolid? source = some (.char Punct.semicolon.char)

instance (source : Source) : Decidable (EndsWithSemicolon source) :=
  inferInstanceAs (Decidable (_ ∨ _))

theorem Lexeme.spelling_ne_nil {x : Lexeme} (hx : x.Spellable) : x.spelling ≠ [] := by
  cases x with
  | keyword k => exact (isWord_spelling k).ne_nil
  | ident name => exact hx.ne_nil
  | _ => exact List.cons_ne_nil _ _

/-- A lexeme that is spelled with a special character at its end is that character. -/
theorem Lexeme.eq_of_last_char {x y : Lexeme} (hx : x.Spellable) {c : Char}
    (hc : x.spelling.getLast? = some c) (hy : ofChar? c = some y) : x = y := by
  by_cases halone : x.standsAlone = true
  · obtain ⟨d, hspelling, hd⟩ := exists_char halone
    obtain rfl : d = c := by simpa [hspelling] using hc
    rw [hd] at hy
    exact Option.some.inj hy
  · cases x with
    | keyword k =>
      rw [(isWord_spelling k).plain c (List.mem_of_getLast? hc)] at hy
      cases hy
    | ident name =>
      rw [hx.plain c (List.mem_of_getLast? hc)] at hy
      cases hy
    | quoted q text =>
      have hquote : (Lexeme.quoted q text).spelling.getLast? = some q.char := by
        rw [spelling, ← List.cons_append, List.getLast?_concat]
      rw [hquote] at hc
      cases hc
      rw [ofChar?_quote] at hy
      cases hy
    | _ => exact absurd rfl halone

theorem Lexeme.last_char_solid {x : Lexeme} (hx : x.Spellable) (hspace : x.isSpace = false) {c : Char}
    (hc : x.spelling.getLast? = some c) : (SourceChar.char c).isSpace = false := by
  by_contra hspace'
  obtain ⟨y, hy, hy'⟩ := (Option.any_eq_true _ _).mp (Bool.of_not_eq_false hspace')
  rw [eq_of_last_char hx hc hy, hy'] at hspace
  cases hspace

theorem ReadsAll.spells {source : Source} {ts : List Token} (reads : ReadsAll source ts) :
    spellAll (ts.map Token.lexeme) = spell source := by
  rw [reads.run.spells]
  exact congrArg spell source.take_length

/-- The characters that spaces are spelled with. -/
theorem Grammar.Spaces.spells {ts : List Token} (ws : Spaces ts []) :
    ∀ c ∈ spellAll (ts.map Token.lexeme), (SourceChar.char c).isSpace = true := by
  generalize hnil : ([] : List Token) = us at ws
  induction ws with
  | none => subst hnil; exact nofun
  | @more w _ _ ts _ _ ih =>
    intro c hc
    rcases List.mem_cons.mp hc with rfl | hc
    · cases w <;> decide
    · exact ih hnil c hc

theorem lastSolid?_spell (source : Source) :
    (lastSolid? source).map SourceChar.toChar =
      (spell source).reverse.find? fun c => !(SourceChar.char c).isSpace := by
  have hwritten (r : SourceChar) : (SourceChar.char r.toChar).isSpace = r.isSpace :=
    congrArg (fun x : Option Lexeme => x.any Lexeme.isSpace) r.lexeme?_written
  rw [spell, ← List.map_reverse, List.find?_map, lastSolid?]
  simp only [Function.comp_def, hwritten]

/-- The tokens of a source that ends with a semicolon are terminated. -/
theorem terminated_of_endsWithSemicolon {source : Source} {ts : List Token}
    (reads : ReadsAll source ts) (h : EndsWithSemicolon source) : Terminated ts := by
  rintro rest ws ⟨t, ⟨front, rfl⟩, hspace, hsemicolon⟩
  have spellable : t.lexeme.Spellable := by
    apply (Cursor.start source).spellable_tokens
    rw [reads.tokens]
    simp
  obtain ⟨init, c, hc⟩ : ∃ init c, t.lexeme.spelling = init ++ [c] :=
    ⟨_, _, (List.dropLast_append_getLast (Lexeme.spelling_ne_nil spellable)).symm⟩
  have hlast : t.lexeme.spelling.getLast? = some c := by rw [hc, List.getLast?_concat]
  have hsolid := Lexeme.last_char_solid spellable hspace hlast
  have hspelled : (spell source).reverse =
      (spellAll (rest.map Token.lexeme)).reverse ++
        c :: (init.reverse ++ (spellAll (front.map Token.lexeme)).reverse) := by
    rw [← reads.spells]
    simp [spellAll, hc]
  have hnone : (spellAll (rest.map Token.lexeme)).reverse.find?
      (fun c => !(SourceChar.char c).isSpace) = none := by
    apply List.find?_eq_none.mpr
    intro d hd
    simp [ws.spells d (List.mem_reverse.mp hd)]
  have hfound : (lastSolid? source).map SourceChar.toChar = some c := by
    rw [lastSolid?_spell, hspelled, List.find?_append, hnone, List.find?_cons_of_pos (by simp [hsolid])]
    rfl
  rcases h with h | h
  · rw [h] at hfound
    cases hfound
  · rw [h] at hfound
    cases hfound
    exact hsemicolon (Lexeme.eq_of_last_char spellable hlast (by decide))

/-! ## Both sources -/

/-- A span moved forward by `k` positions. -/
def Span.forward (k : Int) (s : Span) : Span :=
  ⟨s.start + k, s.stop + k⟩

theorem Span.forward_comp_relabel (k : Nat) :
    Span.forward k ∘ Span.relabel id id = Span.relabel (· + k) (· + k) := by
  funext s
  simp [Span.forward, Span.relabel]

/-- The statements of tokens further on are the same statements further on. -/
theorem Parse.stmts_forward (o : Parse.Options) (k : Nat) (us : List Token) :
    (Parse.stmts o (us.map (Token.relabel (· + k) (· + k)))).results =
      Stmt.mapSpanAll (Span.forward k) (Parse.stmts o us).results := by
  have hid := (Parse.stmts_relabel o id id us).1
  rw [Token.map_relabel_id] at hid
  rw [(Parse.stmts_relabel o (· + k) (· + k) us).1, ← Span.forward_comp_relabel,
    ← Stmt.mapSpanAll_mapSpanAll, ← hid]

section Append

variable {o : Parse.Options} {s₁ : Source} (complete : (parse o s₁).error? = none)
  (closed : EndsWithSemicolon s₁) (s₂ : Source)
include complete closed

/-- The tokens of both sources, and a run over those of the first one. -/
theorem run_append :
    (Cursor.start (s₁ ++ s₂)).Run (Cursor.start s₁).tokens ⟨s₁ ++ s₂, s₁.length⟩ := by
  obtain ⟨reads, -⟩ := (parse_error_none_iff o s₁).mp complete
  have terminated := terminated_of_endsWithSemicolon reads closed
  refine reads.run.append (fun t ht => ?_) s₂
  obtain ⟨front, hfront⟩ := List.getLast?_eq_some_iff.mp ht
  by_contra hword
  refine terminated [] (.none []) ⟨t, ⟨front, hfront.symm⟩, ?_, ?_⟩
  · cases hx : t.lexeme <;> simp_all [Lexeme.isWord, Lexeme.isSpace]
  · rintro hx
    simp [hx, Lexeme.isWord] at hword

theorem tokens_append :
    (Cursor.start (s₁ ++ s₂)).tokens = (Cursor.start s₁).tokens ++
      (Cursor.start s₂).tokens.map (Token.relabel (· + s₁.length) (· + s₁.length)) := by
  have hsecond := Cursor.tokens_prepend s₁ (Cursor.start s₂)
  rw [(run_append complete closed s₂).tokens, ← hsecond]
  simp [Cursor.start]

/-- Both sources are read as the statements of the first and then those of the second, and reading
stops where it stops in the second. -/
theorem readProgram_append :
    (Parse.readProgram o (Cursor.start (s₁ ++ s₂))).result.stmts =
        (parse o s₁).tree.stmts ++ Stmt.mapSpanAll (Span.forward s₁.length) (parse o s₂).tree.stmts ∧
      (Parse.readProgram o (Cursor.start (s₁ ++ s₂))).cursor =
        ⟨s₁ ++ s₂, (Parse.readProgram o (Cursor.start s₂)).cursor.pos + s₁.length⟩ := by
  obtain ⟨reads, hleft⟩ := (parse_error_none_iff o s₁).mp complete
  obtain ⟨hresults, hleft'⟩ := Parse.stmts_append
    (Parse.derives_stmts o (Cursor.start s₁).tokens) (Parse.spaces_of_skipSpaces hleft)
    (terminated_of_endsWithSemicolon reads closed)
    ((Cursor.start s₂).tokens.map (Token.relabel (· + s₁.length) (· + s₁.length)))
  rw [← tokens_append complete closed] at hresults hleft'
  rw [Parse.stmts_forward] at hresults
  rw [(Parse.stmts_relabel o _ _ (Cursor.start s₂).tokens).2, Parse.skipSpaces_relabel] at hleft'
  refine ⟨hresults, ?_⟩
  obtain ⟨ts, hts⟩ := suffix_after_stmts o (Cursor.start s₂).tokens
  obtain ⟨run, hrest⟩ := Cursor.run_before hts.symm
  change (Cursor.start s₂).Run ts (Parse.readProgram o (Cursor.start s₂)).cursor at run
  change (Parse.readProgram o (Cursor.start s₂)).cursor.tokens = _ at hrest
  set d := (Parse.readProgram o (Cursor.start s₂)).cursor
  have hsource : d.source = s₂ := run.source
  have hseam : (⟨s₁ ++ s₂, 0 + s₁.length⟩ : Cursor) = ⟨s₁ ++ s₂, s₁.length⟩ := by rw [Nat.zero_add]
  have hwhole : (Cursor.start (s₁ ++ s₂)).Run _ ⟨s₁ ++ s₂, d.pos + s₁.length⟩ :=
    (run_append complete closed s₂).trans (hseam ▸ run.prepend s₁)
  have htokens := Cursor.tokens_prepend s₁ d
  rw [hsource, hrest, ← hleft'] at htokens
  have hbefore := hwhole.before
  rw [htokens] at hbefore
  exact hbefore

end Append

/-- A source that ends with a semicolon is parsed as before whatever is appended to it, and what is
appended is parsed as if it stood alone: the statements are those of both, an error there is one of the
whole, and its offset and its count are counted from the start of the first source. -/
theorem parse_append {o : Parse.Options} {s₁ : Source} (complete : (parse o s₁).error? = none)
    (closed : EndsWithSemicolon s₁) (s₂ : Source) :
    (parse o (s₁ ++ s₂)).tree.stmts =
        (parse o s₁).tree.stmts ++ Stmt.mapSpanAll (Span.forward s₁.length) (parse o s₂).tree.stmts ∧
      ((parse o (s₁ ++ s₂)).error? = none ↔ (parse o s₂).error? = none) ∧
      ∀ e, (parse o s₂).error? = some e →
        (parse o (s₁ ++ s₂)).error? = some (.program ⟨s₁.length + e.incomplete.offset,
          (parse o s₁).tree.stmts.length + (parse o s₂).tree.stmts.length⟩) := by
  obtain ⟨hstmts, hcursor⟩ := readProgram_append complete closed s₂
  change (parse o (s₁ ++ s₂)).tree.stmts = _ at hstmts
  have hsource : (Parse.readProgram o (Cursor.start s₂)).cursor.source = s₂ :=
    Cursor.source_before _ _
  have hend : (Parse.readProgram o (Cursor.start (s₁ ++ s₂))).cursor.atEnd =
      (Parse.readProgram o (Cursor.start s₂)).cursor.atEnd := by
    rw [hcursor, Bool.eq_iff_iff, Cursor.atEnd_iff, Cursor.atEnd_iff, hsource, List.length_append]
    simp only
    omega
  have hcount : (parse o (s₁ ++ s₂)).tree.stmts.length =
      (parse o s₁).tree.stmts.length + (parse o s₂).tree.stmts.length := by
    rw [hstmts, List.length_append, Stmt.mapSpanAll_eq_map, List.length_map]
  refine ⟨hstmts, ?_, ?_⟩
  · simp only [parse_error_eq, hend, ite_eq_left_iff, reduceCtorEq]
  · intro e he
    rw [parse_error_eq] at he ⊢
    split at he
    next => cases he
    next hopen =>
      cases he
      rw [if_neg (hend ▸ hopen), hcursor, hcount]
      simp only [ParseError.incomplete, Int.natCast_add, Int.add_comm]

theorem parse_append_call_split_by_semicolon :
    (parse .all ("\x7bf 'x'\x7d; f ;\n".toList.map .char)).error? = none ∧
      EndsWithSemicolon ("\x7bf 'x'\x7d; f ;\n".toList.map .char) ∧
      (parse .all ("7;(2)".toList.map .char)).error? = some (.program ⟨2, 1⟩) ∧
      (parse .all ("\x7bf 'x'\x7d; f ;\n".toList.map .char ++ "7;(2)".toList.map .char)).error? =
        some (.program ⟨15, 3⟩) := by
  have complete : (parse .all ("\x7bf 'x'\x7d; f ;\n".toList.map .char)).error? = none := by
    decide +kernel
  have closed : EndsWithSemicolon ("\x7bf 'x'\x7d; f ;\n".toList.map .char) := by decide +kernel
  have stopped : (parse .all ("7;(2)".toList.map .char)).error? = some (.program ⟨2, 1⟩) := by
    decide +kernel
  have hcount : (parse .all ("\x7bf 'x'\x7d; f ;\n".toList.map .char)).tree.stmts.length = 2 ∧
      (parse .all ("7;(2)".toList.map .char)).tree.stmts.length = 1 := by decide +kernel
  have herror := (parse_append complete closed ("7;(2)".toList.map .char)).2.2 _ stopped
  rw [hcount.1, hcount.2] at herror
  exact ⟨complete, closed, stopped, herror⟩

end LetLang
