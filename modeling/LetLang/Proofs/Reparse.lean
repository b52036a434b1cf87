import LetLang.Proofs.Nested
import LetLang.Proofs.Cut
import LetLang.Proofs.Spelling
import LetLang.Proofs.Acceptance
import LetLang.Proofs.Context

/-!
# A span denotes its node

The text that a span of a parsed program covers is the node it belongs to: read on its own, it gives
that node and no error, and the positions in it are counted from the start of the text.

Every node is derived from a part of the tokens that nothing else is needed for. Such a part is read by
a run, and the characters under a run are read alike if they are cut out and written down as a text.
-/
namespace LetLang

open Grammar

/-- A span counted from position `k`. -/
def Span.back (k : Int) (s : Span) : Span :=
  ⟨s.start - k, s.stop - k⟩

/-- The source, read as what the node is, gives the node and no error. -/
def ReadsAs (o : Parse.Options) (source : Source) : Node → Prop
  | .program p => (parse o source).tree = p ∧ (parse o source).error? = none
  | .stmt s => (parse o source).tree = ⟨[s]⟩ ∧ (parse o source).error? = none
  | .expr e => (parseExpression o source).tree = some e ∧ (parseExpression o source).error? = none
  | _ => False

/-! ## Texts cut out of a source -/

namespace SourceChar

/-- A source character as it is written down: a code that is no character has become U+FFFD. -/
def written (r : SourceChar) : SourceChar :=
  .char r.toChar

theorem lexeme?_written (r : SourceChar) : r.written.lexeme? = r.lexeme? := by
  cases r with
  | char c => rfl
  | invalid code h =>
    change Lexeme.ofChar? '\uFFFD' = none
    decide

theorem inWord_written (r : SourceChar) : r.written.inWord = r.inWord := by
  rw [inWord, lexeme?_written]
  rfl

theorem quote?_written (r : SourceChar) : r.written.quote? = r.quote? := by
  cases r with
  | char c => rfl
  | invalid code h =>
    change Quote.ofChar? '\uFFFD' = none
    decide

theorem written_eq_quote_iff {r : SourceChar} {q : Quote} :
    r.written = q.sourceChar ↔ r = q.sourceChar := by
  constructor
  · intro h
    exact eq_of_toChar (SourceChar.char.inj h)
  · rintro rfl
    rfl

end SourceChar

theorem Text.toSource_ofSource (rs : Source) :
    (Text.ofSource rs).toSource = rs.map SourceChar.written := by
  rw [Text.ofSource, Text.toSource_ofChars, spell, List.map_map]
  rfl

theorem spell_written (rs : Source) : spell (rs.map SourceChar.written) = spell rs := by
  rw [spell, List.map_map]
  rfl

/-- Writing a source down does not change its lexemes. -/
theorem scan_written (rs : Source) : scan (rs.map SourceChar.written) = scan rs := by
  cases rs with
  | nil => rfl
  | cons r rest =>
    have hmem (q : Quote) : q.sourceChar ∈ rest.map SourceChar.written ↔ q.sourceChar ∈ rest := by
      simp only [List.mem_map, SourceChar.written_eq_quote_iff, exists_eq_right]
    have hbody (q : Quote) : (rest.map SourceChar.written).takeWhile (fun s => decide (s ≠ q.sourceChar)) =
        (rest.takeWhile fun s => decide (s ≠ q.sourceChar)).map SourceChar.written := by
      simp only [List.takeWhile_map, Function.comp_def, ne_eq, SourceChar.written_eq_quote_iff]
    have hword : (rest.map SourceChar.written).takeWhile SourceChar.inWord =
        (rest.takeWhile SourceChar.inWord).map SourceChar.written := by
      simp only [List.takeWhile_map, Function.comp_def, SourceChar.inWord_written]
    rw [List.map_cons, scan, scan]
    simp only [SourceChar.lexeme?_written, SourceChar.quote?_written, hmem, hbody, hword,
      ← List.map_cons, spell_written, List.length_map]

namespace Cursor

theorem next?_written {c d : Cursor} {t : Token} (h : c.next? = some (t, d)) :
    next? ⟨c.source.map SourceChar.written, c.pos⟩ =
      some (t, ⟨c.source.map SourceChar.written, d.pos⟩) := by
  obtain ⟨x, n, hs, rfl, rfl⟩ := scan_of_next? h
  have hscan : scan (rest ⟨c.source.map SourceChar.written, c.pos⟩) = some (x, n) := by
    rw [rest, ← List.map_drop, scan_written]
    exact hs
  rw [next?, hscan]

theorem Run.written {c d : Cursor} {ts : List Token} (run : Run c ts d) :
    Run ⟨c.source.map SourceChar.written, c.pos⟩ ts ⟨c.source.map SourceChar.written, d.pos⟩ := by
  induction run with
  | stay => exact .stay _
  | step first _ ih =>
    rw [(next?_advances first).1] at ih
    exact .step (next?_written first) ih

theorem next?_drop {c d : Cursor} {t : Token} {k : Nat} (h : c.next? = some (t, d))
    (hk : k ≤ c.pos) :
    ∃ u, next? ⟨c.source.drop k, c.pos - k⟩ = some (u, ⟨c.source.drop k, d.pos - k⟩) ∧
      t = u.relabel (· + k) (· + k) := by
  obtain ⟨x, n, hs, rfl, rfl⟩ := scan_of_next? h
  have hn := (scan_width hs).1
  have hscan : scan (rest ⟨c.source.drop k, c.pos - k⟩) = some (x, n) := by
    rw [rest, List.drop_drop, Nat.add_sub_cancel' hk]
    exact hs
  refine ⟨⟨x, c.pos - k, c.pos - k + n - 1⟩, ?_, ?_⟩
  · have hpos : c.pos - k + n = c.pos + n - k := by omega
    rw [next?, hscan]
    simp only [hpos]
  · simp only [Token.relabel, Token.mk.injEq, true_and]
    omega

/-- A run does not need the characters before its start: without them it is the same run, counted from
their end. -/
theorem Run.drop {c d : Cursor} {ts : List Token} (run : Run c ts d) {k : Nat} (hk : k ≤ c.pos) :
    ∃ us, Run ⟨c.source.drop k, c.pos - k⟩ us ⟨c.source.drop k, d.pos - k⟩ ∧
      ts = us.map (Token.relabel (· + k) (· + k)) := by
  induction run with
  | stay => exact ⟨[], .stay _, rfl⟩
  | step first _ ih =>
    obtain ⟨hsource, hlt, -⟩ := next?_advances first
    obtain ⟨u, hu, rfl⟩ := next?_drop first hk
    obtain ⟨us, run', rfl⟩ := ih (by omega)
    rw [hsource] at run'
    exact ⟨u :: us, .step hu run', rfl⟩

end Cursor

/-- The text under a run is read as a whole, as the tokens of the run. -/
theorem readsAll_excerpt {source : Source} {lo hi : Nat} {ts : List Token}
    (run : Cursor.Run ⟨source, lo⟩ ts ⟨source, hi⟩) :
    ∃ us, ReadsAll (Text.ofSource ((source.drop lo).take (hi - lo))).toSource us ∧
      ts = us.map (Token.relabel (· + lo) (· + lo)) := by
  obtain ⟨us, run', hus⟩ := (run.take (Nat.le_refl hi)).drop (Nat.le_refl lo)
  refine ⟨us, ?_, hus⟩
  have hrun := run'.written
  simp only [Nat.sub_self, List.drop_take] at hrun
  rw [Text.toSource_ofSource]
  refine ⟨_, hrun, Cursor.atEnd_iff.mpr ?_⟩
  simp only [List.length_map]
  exact List.length_take_le _ _

/-- The text of a span that covers the characters between two positions. -/
theorem Span.text?_of_covers {s : Span} {lo hi : Nat} (covers : s.Covers lo hi) {source : Source}
    (bound : hi ≤ source.length) :
    s.text? source = some (Text.ofSource ((source.drop lo).take (hi - lo))) := by
  obtain ⟨hlt, hstart, hstop⟩ := covers
  have hlo : s.start.toNat = lo := by omega
  have hhi : s.stop.toNat + 1 = hi := by omega
  rw [Span.text?, if_pos (by omega), hlo, hhi]

/-! ## Parts of a phrase -/

namespace Grammar

/-- The tokens are the node and nothing else. -/
inductive Alone (o : Parse.Options) : Node → List Token → Prop
  | expr {e : Expr} {ts : List Token} (h : Derives o (.expr e) ts []) : Alone o (.expr e) ts
  | stmt {s : Stmt} {ts : List Token} (h : Derives o (.stmt s) ts []) : Alone o (.stmt s) ts
  | program {s : Stmt} {ss : List Stmt} {ts us : List Token} (head : Derives o (.stmt s) ts us)
      (tail : Derives o (.stmts ss) us []) : Alone o (.program ⟨s :: ss⟩) ts

/-- Each node of the trees has a part of the tokens to itself. -/
def PartsAlone (o : Parse.Options) (ts : List Token) (ns : List Node) : Prop :=
  ∀ n ∈ ns.flatMap Node.nodes, ∃ p, p <:+: ts ∧ Alone o n p

/-- The trees whose nodes are parts of the phrase. A block is one only where blocks are allowed, which
its own rule does not ask for. -/
def Phrase.parts : Phrase → List Node
  | .block e => (Node.expr e).children
  | φ => φ.roots

section Parts

variable {o : Parse.Options} {φ : Phrase} {ts us rest : List Token} {n : Node} {ms ns : List Node}

theorem noNewDigit_nil (rest : List Token) : NoNewDigit rest [] := by
  rintro ⟨d, hd⟩
  cases hd

/-- The tree of a phrase has the tokens of the phrase to itself. -/
theorem Derives.alone (h : Derives o φ ts rest) (hn : φ.node? = some n) (free : ∀ e, φ ≠ .block e) :
    ∃ p, p <:+: ts ∧ Alone o n p := by
  obtain ⟨p, rfl, hp⟩ := h.context
  have derived := hp [] (noNewDigit_nil rest)
  rw [List.append_nil] at derived
  refine ⟨p, (List.prefix_append p rest).isInfix, ?_⟩
  cases φ with
  | stmts => cases hn
  | stmt => cases hn; exact .stmt derived
  | letStmt => cases hn; exact .stmt (.letStmt derived)
  | exprStmt => cases hn; exact .stmt (.exprStmt derived)
  | expr => cases hn; exact .expr derived
  | access => cases hn; exact .expr (.bare derived)
  | primary => cases hn; exact .expr (.bare (.target derived))
  | number => cases hn; exact .expr (.bare (.target (.numeral derived)))
  | block e => exact absurd rfl (free e)

theorem PartsAlone.mono (h : PartsAlone o us ns) (hus : us <:+ ts) : PartsAlone o ts ns := by
  intro n hn
  obtain ⟨p, hp, alone⟩ := h n hn
  exact ⟨p, hp.trans hus.isInfix, alone⟩

theorem PartsAlone.append (h : PartsAlone o ts ms) (h' : PartsAlone o ts ns) :
    PartsAlone o ts (ms ++ ns) := by
  intro n hn
  rw [List.flatMap_append] at hn
  exact (List.mem_append.mp hn).elim (h n) (h' n)

theorem PartsAlone.node (alone : ∃ p, p <:+: ts ∧ Alone o n p) (h : PartsAlone o ts n.children) :
    PartsAlone o ts [n] := by
  intro m hm
  rw [List.flatMap_singleton] at hm
  rcases Node.mem_nodes hm with rfl | hm
  · exact alone
  · exact h m hm

theorem PartsAlone.name (name : List Char) (first last : Nat)
    (h : ⟨.ident name, first, last⟩ :: us <:+ ts) :
    PartsAlone o ts [.expr (.ident ⟨Text.ofChars name, ⟨first, last⟩⟩)] := by
  refine .node ?_ nofun
  obtain ⟨p, hp, alone⟩ := (Derives.ident (o := o) name first last us).alone rfl nofun
  exact ⟨p, hp.trans h.isInfix, alone⟩

theorem Derives.partsAlone (h : Derives o φ ts rest) : PartsAlone o ts φ.parts := by
  induction h with
  | noStmt => exact nofun
  | moreStmts ws head _ ihs ihss =>
    exact (ihs.mono ws.suffix).append (ihss.mono (head.suffix.trans ws.suffix))
  | letStmt _ ih => exact ih
  | exprStmt _ ih => exact ih
  | bare _ ih => exact ih
  | target _ ih => exact ih
  | numeral _ ih => exact ih
  | braced on h ih => exact .node ((Derives.braced on h).alone rfl nofun) ih
  | binding ws ws₁ ws₂ bound ending ih =>
    have hvalue := ws₂.suffix.trans (ws₁.suffix_tail.trans ws.suffix_tail)
    exact .node ((Derives.binding ws ws₁ ws₂ bound ending).alone rfl nofun)
      (((PartsAlone.name _ _ _ ws.suffix).append (ih.mono hvalue)).mono (List.suffix_cons _ _))
  | stated said ending ih => exact .node ((Derives.stated said ending).alone rfl nofun) ih
  | call callee ws ws₁ argument ws₂ ihc ihi =>
    have hinput := ws₁.suffix.trans (ws.suffix_tail.trans callee.suffix)
    exact .node ((Derives.call callee ws ws₁ argument ws₂).alone rfl nofun)
      (ihc.append (ihi.mono hinput))
  | field on object ih =>
    have hname := (List.suffix_cons _ _).trans object.suffix
    exact .node ((Derives.field on object).alone rfl nofun)
      (ih.append (PartsAlone.name _ _ _ hname))
  | ident name first last rest =>
    exact .node ((Derives.ident name first last rest).alone rfl nofun) nofun
  | trueLit first last rest => exact .node ((Derives.trueLit first last rest).alone rfl nofun) nofun
  | falseLit first last rest => exact .node ((Derives.falseLit first last rest).alone rfl nofun) nofun
  | quoted q text first last rest =>
    exact .node ((Derives.quoted q text first last rest).alone rfl nofun) nofun
  | number digits maximal fits =>
    exact .node ((Derives.number digits maximal fits).alone rfl nofun) nofun
  | block _ ws ih => exact ih.mono (List.suffix_cons _ _)

end Parts

/-- The statements of a program have the tokens from the first to the last to themselves. -/
theorem Derives.alone_program {o : Parse.Options} {p : Program} {ts rest : List Token}
    (h : Derives o (.stmts p.stmts) ts rest) (hne : p.stmts ≠ []) :
    ∃ q, q <:+: ts ∧ Alone o (.program p) q := by
  obtain ⟨ss⟩ := p
  cases h with
  | noStmt => exact absurd rfl hne
  | moreStmts ws head tail =>
    obtain ⟨b, rfl, hb⟩ := tail.context
    obtain ⟨a, rfl, ha⟩ := head.context
    have hhead := ha _ ((noNewDigit_nil rest).append b)
    have hab : a ++ b <:+: a ++ (b ++ rest) := by
      rw [← List.append_assoc]
      exact (List.prefix_append _ _).isInfix
    exact ⟨a ++ b, hab.trans ws.suffix.isInfix, .program (by simpa using hhead)
      (by simpa using hb [] (noNewDigit_nil rest))⟩

/-- The last of some statements ends where the statements end. -/
theorem Derives.stop_last {o : Parse.Options} {ss : List Stmt} {s : Stmt} {ts rest : List Token}
    {lo mid hi : Nat} (h : Derives o (.stmts ss) ts rest) (tiles : Tiles lo ts hi)
    (after : Tiles mid rest hi) (hs : ss.getLast? = some s) :
    ∃ t, (Node.stmt s).span? = some t ∧ t.stop + 1 = mid := by
  induction ss generalizing ts lo with
  | nil => cases hs
  | cons s' ss ih =>
    cases h with
    | moreStmts ws head tail =>
      obtain ⟨a, -, ta⟩ := ws.tiles tiles
      obtain ⟨b, tb, covers⟩ := head.covers ta
      cases ss with
      | nil =>
        cases hs
        cases tail
        obtain rfl := tb.start_eq after
        obtain ⟨t, ht, -, -, hstop⟩ := covers.node head.present rfl
        exact ⟨t, ht, hstop⟩
      | cons => exact ih tail tb hs

theorem Alone.covers {o : Parse.Options} {n : Node} {ts : List Token} {lo hi : Nat}
    (h : Alone o n ts) (tiles : Tiles lo ts hi) : ∃ s, n.span? = some s ∧ s.Covers lo hi := by
  cases h with
  | expr h | stmt h =>
    obtain ⟨mid, rfl, covers⟩ := h.covers tiles
    exact covers.node h.present rfl
  | @program first ss _ _ head tail =>
    obtain ⟨last, hlast⟩ : ∃ last, (first :: ss).getLast? = some last :=
      ⟨_, List.getLast?_eq_some_getLast (List.cons_ne_nil first ss)⟩
    obtain ⟨t, ht, hstop⟩ := (Derives.moreStmts (.none ts) head tail).stop_last tiles rfl hlast
    obtain ⟨mid, after, covers⟩ := head.covers tiles
    obtain ⟨s, hs, hlt, hstart, -⟩ := covers.node head.present rfl
    have hle := after.le
    exact ⟨_, Program.span?_of_ends rfl hlast hs ht, by omega, hstart, hstop⟩

end Grammar

/-! ## Trees counted from another position -/

theorem Span.back_comp_relabel (k : Nat) :
    Span.back k ∘ Span.relabel (· + k) (· + k) = Span.relabel id id := by
  funext s
  simp [Span.back, Span.relabel]

theorem Token.map_relabel_id (ts : List Token) : ts.map (Token.relabel id id) = ts :=
  List.map_id ts

namespace Parse

variable {o : Options} {k : Nat} {us : List Token}

/-- Statements `k` positions further back are the same statements, counted from `k`. -/
theorem stmts_back (o : Options) (k : Nat) (us : List Token) :
    (stmts o us).results =
      Stmt.mapSpanAll (Span.back k) (stmts o (us.map (Token.relabel (· + k) (· + k)))).results := by
  have hid := (stmts_relabel o id id us).1
  rw [Token.map_relabel_id] at hid
  rw [(stmts_relabel o (· + k) (· + k) us).1, Stmt.mapSpanAll_mapSpanAll, Span.back_comp_relabel,
    ← hid]

theorem expr_back {e : Expr} (h : (expr o (us.map (Token.relabel (· + k) (· + k)))).matched = some (e, [])) :
    (expr o us).matched = some (e.mapSpan (Span.back k), []) := by
  have hid := (relabelsBelow o id id us.length).exprAt
  have hadd := (relabelsBelow o (· + k) (· + k) us.length).exprAt
  rw [Token.map_relabel_id] at hid
  rw [h] at hadd
  obtain ⟨m, hm, he⟩ := Option.map_eq_some_iff.mp hadd.symm
  obtain ⟨hx, hleft⟩ := Prod.mk.inj he
  rw [hm] at hid
  obtain ⟨hxid, -⟩ := Prod.mk.inj (Option.some.inj hid)
  rw [hm, ← hx, Expr.mapSpan_mapSpan, Span.back_comp_relabel, ← hxid, ← List.map_eq_nil_iff.mp hleft]

end Parse

section Back

variable {o : Parse.Options} {source : Source} {us : List Token} {k : Nat}

/-- A program further back is parsed at the front of a source. -/
theorem parse_of_back {p : Program} (reads : ReadsAll source us)
    (h : IsProgram o p (us.map (Token.relabel (· + k) (· + k)))) :
    (parse o source).tree = p.mapSpan (Span.back k) ∧ (parse o source).error? = none := by
  obtain ⟨hresults, hleft⟩ := stmts_of_isProgram h
  rw [(Parse.stmts_relabel o (· + k) (· + k) us).2, Parse.skipSpaces_relabel,
    List.map_eq_nil_iff] at hleft
  have hback := Parse.stmts_back o k us
  rw [hresults] at hback
  rw [← reads.tokens] at hleft hback reads
  exact ⟨congrArg Program.mk hback, (parse_error_none_iff o source).mpr ⟨reads, hleft⟩⟩

theorem parseExpression_of_back {e : Expr} (reads : ReadsAll source us)
    (h : Derives o (.expr e) (us.map (Token.relabel (· + k) (· + k))) []) :
    (parseExpression o source).tree = some (e.mapSpan (Span.back k)) ∧
      (parseExpression o source).error? = none := by
  have hskip := h.skipSpaces_eq_expr (.none _)
  rw [Parse.skipSpaces_relabel] at hskip
  rw [← hskip] at h
  have hmatched := Parse.expr_back (Parse.finds_of_derives h ⟨nofun, nofun⟩)
  rw [← reads.tokens] at hmatched reads
  obtain ⟨htree, herror⟩ := parseExpression_of_matched hmatched
  exact ⟨htree, herror.mpr ⟨reads, rfl⟩⟩

theorem readsAs_of_alone {n : Node} (reads : ReadsAll source us)
    (h : Alone o n (us.map (Token.relabel (· + k) (· + k)))) :
    ReadsAs o source (n.mapSpan (Span.back k)) := by
  cases h with
  | expr h => exact parseExpression_of_back reads h
  | stmt h => exact parse_of_back (p := ⟨[_]⟩) reads ⟨[], .moreStmts (.none _) h (.noStmt []), .none []⟩
  | program head tail => exact parse_of_back reads ⟨[], .moreStmts (.none _) head tail, .none []⟩

end Back

/-- A node that has a part of the tokens of a source to itself is what the text of its span reads as. -/
theorem readsAs_text {o : Parse.Options} {source : Source} {n : Node} {ts : List Token}
    (part : ts <:+: (Cursor.start source).tokens) (alone : Alone o n ts) :
    ∃ s text, n.span? = some s ∧ s.text? source = some text ∧
      ReadsAs o text.toSource (n.mapSpan (Span.back s.start)) := by
  obtain ⟨before, behind, hts⟩ := part
  rw [List.append_assoc] at hts
  obtain ⟨⟨source', lo⟩, run, htokens⟩ := Cursor.exists_run hts.symm
  obtain rfl : source = source' := run.source.symm
  obtain ⟨⟨source', hi⟩, run', -⟩ := Cursor.exists_run htokens
  obtain rfl : source = source' := run'.source.symm
  obtain ⟨s, hs, covers⟩ := alone.covers run'.tiles
  obtain ⟨us, reads, rfl⟩ := readsAll_excerpt run'
  refine ⟨s, _, hs, Span.text?_of_covers covers (run'.pos_le covers.1), ?_⟩
  rw [covers.2.1]
  exact readsAs_of_alone reads alone

/-- The span of each node of a parsed program denotes the node. -/
theorem parse_spans_denote {o : Parse.Options} {source : Source}
    (hne : (parse o source).tree.stmts ≠ []) :
    ∀ n ∈ (Node.program (parse o source).tree).nodes, ∃ s text, n.span? = some s ∧
      s.text? source = some text ∧ ReadsAs o text.toSource (n.mapSpan (Span.back s.start)) := by
  have derived := Parse.derives_stmts o (Cursor.start source).tokens
  intro n hn
  rcases Node.mem_nodes hn with rfl | hn
  · obtain ⟨ts, part, alone⟩ := derived.alone_program (p := (parse o source).tree) hne
    exact readsAs_text part alone
  · obtain ⟨ts, part, alone⟩ := derived.partsAlone n hn
    exact readsAs_text part alone

theorem parse_spans_denote_before_paren :
    (parse .all (" f(a.b) ; (".toList.map .char)).tree.stmts ≠ [] ∧
      (Node.program (parse .all (" f(a.b) ; (".toList.map .char)).tree).nodes.length = 7 ∧
      ∀ n ∈ (Node.program (parse .all (" f(a.b) ; (".toList.map .char)).tree).nodes, ∃ s text,
        n.span? = some s ∧ s.text? (" f(a.b) ; (".toList.map .char) = some text ∧
        ReadsAs .all text.toSource (n.mapSpan (Span.back s.start)) := by
  have hne : (parse .all (" f(a.b) ; (".toList.map .char)).tree.stmts ≠ [] := by
    apply List.ne_nil_of_length_pos
    decide +kernel
  exact ⟨hne, by decide +kernel, parse_spans_denote hne⟩

end LetLang
