import LetLang.Parse
import LetLang.Proofs.Run
import LetLang.Proofs.Soundness

/-!
# What a production reads

A production that matches moves the cursor forward within the same source, and the span of the tree
covers exactly the characters in between: from the position before to the one right before the position
after. The spans are followed through a derivation, with the tokens tiling the source.
-/
namespace LetLang

/-- The span of a tree read between two positions. -/
def Span.Covers (s : Span) (lo hi : Nat) : Prop :=
  lo < hi ∧ s.start = lo ∧ s.stop + 1 = hi

namespace Grammar

open Parse (Options)

theorem Spaces.tiles {ts rest : List Token} (ws : Spaces ts rest) {lo hi : Nat}
    (h : Tiles lo ts hi) : ∃ mid, lo ≤ mid ∧ Tiles mid rest hi := by
  induction ws generalizing lo with
  | none => exact ⟨lo, Nat.le_refl lo, h⟩
  | more _ ih =>
    obtain ⟨hf, hl, ht⟩ := h.cons
    obtain ⟨mid, hle, hm⟩ := ih ht
    exact ⟨mid, by omega, hm⟩

theorem Spaces.tiles_token {ts rest : List Token} {x : Lexeme} {first last : Nat}
    (ws : Spaces ts (⟨x, first, last⟩ :: rest)) {lo hi : Nat} (h : Tiles lo ts hi) :
    lo ≤ first ∧ first ≤ last ∧ Tiles (last + 1) rest hi := by
  obtain ⟨mid, hle, hm⟩ := ws.tiles h
  obtain ⟨hf, hl, ht⟩ := hm.cons
  exact ⟨by omega, hl, ht⟩

/-- A statement that ends without a semicolon ends where its expression does: the spaces after it
are not its own. -/
theorem Ending.tiles {stop stop' : Int} {ts rest : List Token} (ending : Ending stop ts stop' rest)
    {lo hi : Nat} (h : Tiles lo ts hi) (hstop : stop + 1 = lo) :
    ∃ mid : Nat, lo ≤ mid ∧ Tiles mid rest hi ∧ stop' + 1 = mid := by
  cases ending with
  | none => exact ⟨lo, Nat.le_refl lo, h, hstop⟩
  | semicolon ws =>
    obtain ⟨hf, hl, ht⟩ := ws.tiles_token h
    exact ⟨_, by omega, ht, by simp⟩

/-- A phrase other than a list of statements is a node of the tree. -/
def Phrase.node? : Phrase → Option Node
  | .stmts _ => none
  | .stmt s | .letStmt s | .exprStmt s => some (.stmt s)
  | .expr e | .access e | .primary e | .number e | .block e => some (.expr e)

/-- The tree of a phrase read between two positions covers what is in between. -/
def Phrase.Covers (lo hi : Nat) : Phrase → Prop
  | .stmts _ => lo ≤ hi
  | .stmt s | .letStmt s | .exprStmt s => s.span.Covers lo hi
  | .expr e | .access e | .primary e | .number e | .block e => e.span.Covers lo hi

theorem Derives.covers {o : Options} {φ : Phrase} {ts rest : List Token} (h : Derives o φ ts rest)
    {lo hi : Nat} (tiles : Tiles lo ts hi) : ∃ mid, Tiles mid rest hi ∧ φ.Covers lo mid := by
  induction h generalizing lo with
  | noStmt => exact ⟨lo, tiles, Nat.le_refl lo⟩
  | moreStmts ws _ _ ihs ihss =>
    obtain ⟨a, ha, ta⟩ := ws.tiles tiles
    obtain ⟨b, tb, hb, -, -⟩ := ihs ta
    obtain ⟨c, tc, hc⟩ := ihss tb
    change b ≤ c at hc
    exact ⟨c, tc, Nat.le_trans ha (Nat.le_trans (Nat.le_of_lt hb) hc)⟩
  | letStmt _ ih => exact ih tiles
  | exprStmt _ ih => exact ih tiles
  | binding ws ws₁ ws₂ _ ending ih =>
    obtain ⟨hf, hl, t⟩ := tiles.cons
    obtain ⟨hfa, hla, ta⟩ := ws.tiles_token t
    obtain ⟨hfb, hlb, tb⟩ := ws₁.tiles_token ta
    obtain ⟨c, hc, tc⟩ := ws₂.tiles tb
    obtain ⟨d, td, hd, -, hstop⟩ := ih tc
    obtain ⟨e, he, te, hend⟩ := ending.tiles td hstop
    exact ⟨e, te, by omega, by simp [Stmt.span, hf], hend⟩
  | stated _ ending ih =>
    obtain ⟨a, ta, ha, hstart, hstop⟩ := ih tiles
    obtain ⟨b, hb, tb, hend⟩ := ending.tiles ta hstop
    exact ⟨b, tb, by omega, hstart, hend⟩
  | bare _ ih => exact ih tiles
  | call _ ws ws₁ _ ws₂ ihc ihi =>
    obtain ⟨a, ta, ha, hstart, -⟩ := ihc tiles
    obtain ⟨hfb, hlb, tb⟩ := ws.tiles_token ta
    obtain ⟨c, hc, tc⟩ := ws₁.tiles tb
    obtain ⟨d, td, hd, -, -⟩ := ihi tc
    obtain ⟨hfe, hle, te⟩ := ws₂.tiles_token td
    exact ⟨_, te, by omega, hstart, by simp [Expr.span]⟩
  | target _ ih => exact ih tiles
  | field _ _ ih =>
    obtain ⟨a, ta, ha, hstart, -⟩ := ih tiles
    obtain ⟨hfa, hla, tb⟩ := ta.cons
    obtain ⟨hfb, hlb, tc⟩ := tb.cons
    exact ⟨_, tc, by omega, hstart, by simp [Expr.span]⟩
  | ident | trueLit | falseLit | quoted =>
    obtain ⟨hf, hl, t⟩ := tiles.cons
    exact ⟨_, t, by omega, by simp [Expr.span, hf], by simp [Expr.span]⟩
  | numeral _ ih => exact ih tiles
  | braced _ _ ih => exact ih tiles
  | @number t run rest ds _ _ _ =>
    obtain ⟨mid, hrun, hrest⟩ := Tiles.append.mp (show Tiles lo ((t :: run) ++ rest) hi from tiles)
    have hlast : (t :: run).getLast? = some (run.getLastD t) := by
      rw [List.getLast?_cons, List.getLastD_eq_getLast?]
    have hend := hrun.getLast hlast
    obtain ⟨hf, hl, t'⟩ := hrun
    have hle := t'.le
    exact ⟨mid, hrest, by omega, by simp [Expr.span, hf], by simp [Expr.span, ← hend]⟩
  | block _ ws ih =>
    obtain ⟨hf, hl, t⟩ := tiles.cons
    obtain ⟨a, ta, ha⟩ := ih t
    obtain ⟨hfb, hlb, tb⟩ := ws.tiles_token ta
    change _ ≤ a at ha
    exact ⟨_, tb, by omega, by simp [Expr.span, hf], by simp [Expr.span]⟩

theorem Phrase.Covers.node {lo hi : Nat} {φ : Phrase} (h : φ.Covers lo hi) (present : φ.Present)
    {n : Node} (hn : φ.node? = some n) : ∃ s, n.span? = some s ∧ s.Covers lo hi := by
  cases φ with
  | stmts => cases hn
  | stmt s | letStmt s | exprStmt s =>
    have habsent : s.isAbsent = false := present
    cases hn
    exact ⟨s.span, by simp [Node.span?, habsent], h⟩
  | expr e | access e | primary e | number e | block e =>
    have habsent : e.isAbsent = false := present
    cases hn
    exact ⟨e.span, by simp [Node.span?, habsent], h⟩

end Grammar

namespace Parse

open Grammar

theorem Outcome.exists_of_map {α β : Type} {f : α → β} {r : Outcome α} {y : β} {left : List Token}
    (h : (r.map f).result = some (y, left)) : ∃ x, r.result = some (x, left) ∧ f x = y := by
  obtain ⟨⟨x, rest⟩, hr, he⟩ := Option.map_eq_some_iff.mp h
  cases he
  exact ⟨x, hr, rfl⟩

/-- What a production gives is derived, and as a block only by the production of blocks. -/
theorem Production.derives_own {o : Options} {p : Production} {ts left : List Token} {n : Node}
    (h : (p.outcome o ts).result = some (n, left)) :
    ∃ φ, Derives o φ ts left ∧ φ.node? = some n ∧ ∀ e, φ = .block e → p = .block := by
  have sound := soundBelow o ts.length
  cases p with
  | stmt =>
    obtain ⟨s, hs, rfl⟩ := Outcome.exists_of_map h
    exact ⟨.stmt s, sound.stmt hs, rfl, nofun⟩
  | letStmt =>
    obtain ⟨s, hs, rfl⟩ := Outcome.exists_of_map h
    exact ⟨.letStmt s, sound.letStmt hs, rfl, nofun⟩
  | exprStmt =>
    obtain ⟨s, hs, rfl⟩ := Outcome.exists_of_map h
    exact ⟨.exprStmt s, sound.exprStmt hs, rfl, nofun⟩
  | expr =>
    obtain ⟨e, he, rfl⟩ := Outcome.exists_of_map h
    exact ⟨.expr e, sound.exprAt he, rfl, nofun⟩
  | call =>
    obtain ⟨e, he, rfl⟩ := Outcome.exists_of_map h
    rw [← expr_eq] at he
    exact ⟨.expr e, sound.exprAt he, rfl, nofun⟩
  | access =>
    obtain ⟨e, he, rfl⟩ := Outcome.exists_of_map h
    exact ⟨.access e, sound.access he, rfl, nofun⟩
  | primary =>
    obtain ⟨e, he, rfl⟩ := Outcome.exists_of_map h
    exact ⟨.primary e, sound.primary he, rfl, nofun⟩
  | number =>
    obtain ⟨e, he, rfl⟩ := Outcome.exists_of_map h
    exact ⟨.number e, matched_number_iff.mp he, rfl, nofun⟩
  | block =>
    obtain ⟨e, he, rfl⟩ := Outcome.exists_of_map h
    exact ⟨.block e, sound.block he, rfl, fun _ _ => rfl⟩

/-- What a production gives is derived. -/
theorem Production.derives {o : Options} {p : Production} {ts left : List Token} {n : Node}
    (h : (p.outcome o ts).result = some (n, left)) :
    ∃ φ, Derives o φ ts left ∧ φ.node? = some n := by
  obtain ⟨φ, derived, hn, -⟩ := derives_own h
  exact ⟨φ, derived, hn⟩

/-- A production that matches at a cursor covers exactly the text up to the tokens it leaves. -/
theorem Production.covers {o : Options} (p : Production) {c : Cursor} {n : Node} {left : List Token}
    (h : (p.outcome o c.tokens).result = some (n, left)) :
    ∃ s, n.span? = some s ∧ c.pos < (c.before left).pos ∧
      (c.before left).pos ≤ c.source.length ∧
      s.start = c.pos ∧ s.stop + 1 = (c.before left).pos := by
  obtain ⟨φ, derived, hn⟩ := Production.derives h
  obtain ⟨mid, tiles, covers⟩ := derived.covers c.tokens_tile
  obtain ⟨s, hs, hlt, hstart, hstop⟩ := covers.node derived.present hn
  have hmid : (c.before left).pos = mid := Cursor.pos_before tiles
  have hle : mid ≤ c.source.length := by
    have hlimit := tiles.le
    have hbound := Cursor.limit_le (c := c) (by omega)
    omega
  rw [hmid]
  exact ⟨s, hs, hlt, hle, hstart, hstop⟩

end Parse

end LetLang
