import LetLang.Kind
import LetLang.Proofs.Reparse

/-!
# Lexing loses nothing

The tokens of a source lie side by side from its start to where reading stops, and written one after
another they are the characters read. Reading stops at the end of the source or at a quote that is not
followed by another of its kind. The characters of a single token, cut out and read on their own, are
that token again, wherever in the source it was read.

All of this comes from one description of what `scan` reads: a piece at the front of the characters,
spelled as the lexeme is, which in the case of a word goes on as far as a word can.
-/
namespace LetLang

/-! ## What is read at one place -/

theorem Lexeme.spelling_of_ofChar? {c : Char} {x : Lexeme} (h : ofChar? c = some x) :
    x.spelling = [c] := by
  obtain ⟨d, hspelling, hd⟩ := exists_char (standsAlone_of_ofChar? h)
  have hliteral := literal_of_ofChar? h
  rw [literal_of_ofChar? hd, List.singleton_inj] at hliteral
  rw [hspelling, hliteral]

theorem Lexeme.isWord_of_ofChar? {c : Char} {x : Lexeme} (h : ofChar? c = some x) :
    x.isWord = false := by
  have halone := standsAlone_of_ofChar? h
  cases x with
  | keyword | ident => cases halone
  | _ => rfl

theorem inWord_dropWhile {rs : Source} {r : SourceChar}
    (h : (rs.dropWhile SourceChar.inWord).head? = some r) : r.inWord = false := by
  have hstop := List.head?_dropWhile_not SourceChar.inWord rs
  rw [h] at hstop
  exact hstop

/-- A lexeme is read off the front of the characters: they begin with its spelling, and behind a word
stands nothing that could belong to it. -/
theorem scan_splits {rs : Source} {x : Lexeme} {n : Nat} (h : scan rs = some (x, n)) :
    ∃ piece rest, rs = piece ++ rest ∧ piece.length = n ∧ spell piece = x.spelling ∧
      (x.isWord = true → ∀ r, rest.head? = some r → r.inWord = false) := by
  cases rs with
  | nil => cases h
  | cons r rest =>
    simp only [scan] at h
    split at h
    next y hy =>
      cases h
      cases r with
      | invalid => cases hy
      | char c =>
        refine ⟨[.char c], rest, rfl, rfl, (Lexeme.spelling_of_ofChar? hy).symm, fun hword => ?_⟩
        rw [Lexeme.isWord_of_ofChar? hy] at hword
        cases hword
    next =>
      split at h
      next q hq =>
        split at h
        next mem =>
          cases h
          obtain rfl := SourceChar.quote?_eq_some_iff.mp hq
          -- the text ends at the first delimiter, so the rest is cut there
          obtain ⟨body, after, rfl, hbody⟩ := List.eq_append_cons_of_mem mem
          rw [takeWhile_ne_of_notMem hbody after]
          refine ⟨q.sourceChar :: (body ++ [q.sourceChar]), after, ?_, ?_, ?_, fun hword => ?_⟩
          · simp
          · simp
          · simp [spell, Lexeme.spelling, Quote.sourceChar]
          · cases hword
        next => cases h
      next =>
        cases h
        refine ⟨r :: rest.takeWhile SourceChar.inWord, rest.dropWhile SourceChar.inWord, ?_, rfl,
          (Lexeme.spelling_ofWord _).symm, fun _ _ hr => inWord_dropWhile hr⟩
        rw [List.cons_append, List.takeWhile_append_dropWhile]

/-- Nothing can be read where there are no characters, or where a quote stands that does not come
again. -/
theorem scan_eq_none_iff {rs : Source} :
    scan rs = none ↔
      rs = [] ∨ ∃ (q : Quote) (rest : Source), rs = q.sourceChar :: rest ∧ q.sourceChar ∉ rest := by
  constructor
  · intro h
    cases rs with
    | nil => exact .inl rfl
    | cons r rest =>
      simp only [scan] at h
      split at h
      next => cases h
      next =>
        split at h
        next q hq =>
          split at h
          next => cases h
          next unclosed => exact .inr ⟨q, rest, by rw [SourceChar.quote?_eq_some_iff.mp hq], unclosed⟩
        next => cases h
  · rintro (rfl | ⟨q, rest, rfl, unclosed⟩)
    · rfl
    · have hlexeme : q.sourceChar.lexeme? = none := Lexeme.ofChar?_quote q
      have hquote : q.sourceChar.quote? = some q := SourceChar.quote?_eq_some_iff.mpr rfl
      rw [scan]
      simp only [hlexeme, hquote, unclosed, ↓reduceIte]

namespace Cursor

/-- The tokens of a run are spelled as the characters it passes over. -/
theorem Run.spells {c d : Cursor} {ts : List Token} (run : Run c ts d) :
    spellAll (ts.map Token.lexeme) = spell (c.rest.take (d.pos - c.pos)) := by
  induction run with
  | stay c => simp [spellAll, spell]
  | @step c d e t ts first others ih =>
    obtain ⟨x, n, hscan, rfl, rfl⟩ := scan_of_next? first
    obtain ⟨piece, rest, hrest, hlength, hspell, -⟩ := scan_splits hscan
    have hpiece : c.rest.take n = piece := by rw [hrest, List.take_left' hlength]
    have hle : c.pos + n ≤ e.pos := others.tiles.le
    have hwidth : e.pos - c.pos = n + (e.pos - (c.pos + n)) := by omega
    calc spellAll (x :: ts.map Token.lexeme)
        = x.spelling ++ spellAll (ts.map Token.lexeme) := rfl
      _ = spell (c.rest.take n) ++ spell ((c.rest.drop n).take (e.pos - (c.pos + n))) := by
          rw [ih, rest_add, hpiece, hspell]
      _ = spell (c.rest.take (e.pos - c.pos)) := by
          rw [hwidth, List.take_add, spell, spell, spell, List.map_append]

end Cursor

/-! ## The tokens of a source -/

namespace Kind

/-- How a token of this kind is written: its literal between its delimiters. -/
def spelling (k : Kind) : Text :=
  Text.ofDelimiter k.quote ++ k.literal ++ Text.ofDelimiter k.quote

theorem spelling_ofLexeme (x : Lexeme) : (ofLexeme x).spelling = Text.ofChars x.spelling := by
  cases x with
  | quoted q text =>
    simp [spelling, ofLexeme, Lexeme.quote?, Lexeme.literal, Lexeme.spelling, Text.ofDelimiter,
      Text.ofSource, spell, Quote.sourceChar]
  | _ => simp [spelling, ofLexeme, Lexeme.quote?, Lexeme.spelling, Text.ofDelimiter]

theorem flatMap_spelling (xs : List Lexeme) :
    (xs.map ofLexeme).flatMap spelling = Text.ofChars (spellAll xs) := by
  induction xs with
  | nil => rfl
  | cons x xs ih =>
    rw [List.map_cons, List.flatMap_cons, ih, spelling_ofLexeme, ← Text.ofChars_append]
    rfl

end Kind

/-- The kind of a token. -/
def Token.kind (t : Token) : Kind :=
  .ofLexeme t.lexeme

/-- The quote at position `k` is the last of its kind in the source. -/
def LastQuote (source : Source) (k : Nat) : Prop :=
  ∃ q : Quote, source[k]? = some q.sourceChar ∧ ∀ i, k < i → source[i]? ≠ some q.sourceChar

/-- Reading token after token stops at the end of the source or before the last quote of some kind. -/
theorem Cursor.stops {c : Cursor} (h : c.next? = none) (inside : c.pos ≤ c.source.length) :
    c.pos = c.source.length ∨ LastQuote c.source c.pos := by
  have hscan : scan c.rest = none := by
    unfold next? at h
    split at h
    next hs => exact hs
    next => cases h
  rcases scan_eq_none_iff.mp hscan with hnil | ⟨q, rest, hrest, unclosed⟩
  · left
    have hle := List.drop_eq_nil_iff.mp hnil
    omega
  · right
    refine ⟨q, ?_, ?_⟩
    · rw [← List.head?_drop, show c.source.drop c.pos = _ from hrest, List.head?_cons]
    · intro i hi hq
      apply unclosed
      have htail : rest = c.source.drop (c.pos + 1) := by
        rw [← List.tail_drop, show c.source.drop c.pos = _ from hrest, List.tail_cons]
      rw [htail]
      refine List.mem_of_getElem? (i := i - (c.pos + 1)) ?_
      rw [List.getElem?_drop, show c.pos + 1 + (i - (c.pos + 1)) = i by omega]
      exact hq

/-- Reading a source token after token, as far as it goes, gives tokens that lie side by side from the
start, and written one after another they are the text up to where it stops. It stops at the end of the
source or at the last quote of its kind. -/
theorem tokens_tile_losslessly (source : Source) :
    ∃ stop, (Cursor.start source).Run (Cursor.start source).tokens ⟨source, stop⟩ ∧
      Cursor.next? ⟨source, stop⟩ = none ∧
      Tiles 0 (Cursor.start source).tokens stop ∧
      (Cursor.start source).tokens.flatMap (fun t => t.kind.spelling) =
        Text.ofSource (source.take stop) ∧
      (stop = source.length ∨ LastQuote source stop) := by
  obtain ⟨⟨source', stop⟩, run, hstop⟩ :=
    Cursor.exists_run (List.append_nil (Cursor.start source).tokens).symm
  obtain rfl : source = source' := run.source.symm
  have hnext := Cursor.next?_of_tokens_nil hstop
  refine ⟨stop, run, hnext, run.tiles, ?_, Cursor.stops hnext (run.bound (Nat.zero_le _))⟩
  have hspells := run.spells
  have hkinds := Kind.flatMap_spelling ((Cursor.start source).tokens.map Token.lexeme)
  rw [hspells, List.map_map, List.flatMap_map] at hkinds
  exact hkinds

/-! ## The text of a token -/

/-- The length of a span inside a source does not wrap around. -/
theorem Span.length_of_covers {s : Span} {lo hi : Nat} (covers : s.Covers lo hi) (h : 2 * hi < UInt64.size) :
    s.length = hi - lo := by
  obtain ⟨hlt, hstart, hstop⟩ := covers
  have hsize : UInt64.size = 18446744073709551616 := rfl
  rw [Span.length, Int.bmod_eq_of_le] <;> omega

/-- A token covers the characters between the cursors before and behind it. -/
theorem Cursor.next?_covers {c d : Cursor} {t : Token} (h : c.next? = some (t, d)) :
    t.span.Covers c.pos d.pos := by
  obtain ⟨hfirst, hle, hlast⟩ := next?_token h
  refine ⟨by omega, ?_, ?_⟩ <;> simp only [Token.span] <;> omega

/-- A token is what the text under it reads as, and the text holds nothing else. This holds wherever
the token was read, also in the middle of a word or of a quoted text. -/
theorem next?_of_token_text {c d : Cursor} {t : Token} (h : c.next? = some (t, d)) :
    ∃ text u e, t.span.text? c.source = some text ∧
      (Cursor.start text.toSource).next? = some (u, e) ∧ u.kind = t.kind ∧
      u.span = ⟨0, t.span.stop - t.span.start⟩ ∧
      (2 * c.source.length < UInt64.size → u.span = ⟨0, t.span.length - 1⟩) ∧ e.atEnd = true := by
  have covers := Cursor.next?_covers h
  obtain ⟨hsource, -, hbound⟩ := Cursor.next?_advances h
  obtain ⟨source, lo⟩ := c
  obtain ⟨source', hi⟩ := d
  obtain rfl : source' = source := hsource
  simp only at covers hbound ⊢
  obtain ⟨us, ⟨e, run, hend⟩, hus⟩ := readsAll_excerpt (.step h (.stay _))
  obtain ⟨u, rfl, rfl⟩ := List.map_eq_singleton_iff.mp hus.symm
  cases run with
  | step first others =>
    cases others
    have hzero : u.first = 0 := (Cursor.next?_token first).1
    have hspan : u.span = ⟨0, (u.relabel (· + lo) (· + lo)).span.stop -
        (u.relabel (· + lo) (· + lo)).span.start⟩ := by
      simp [Token.span, Token.relabel, hzero]
    refine ⟨_, u, e, Span.text?_of_covers covers hbound, first, rfl, hspan, fun hlength => ?_, hend⟩
    have hwidth := Span.length_of_covers covers (by omega)
    obtain ⟨-, hstart, hstop⟩ := covers
    rw [hspan, hwidth, Span.mk.injEq]
    exact ⟨rfl, by omega⟩

theorem next?_of_token_text_inside_quotes :
    Cursor.next? ⟨([39, 97, -1, 0xD800, 34, 39, 59] : List Int32).map .ofCode, 1⟩ =
        some (⟨.ident ['a', '\uFFFD', '\uFFFD', '\x22', '\x27'], 1, 5⟩,
          ⟨([39, 97, -1, 0xD800, 34, 39, 59] : List Int32).map .ofCode, 6⟩) ∧
      ∃ text u e,
        Span.text? ⟨1, 5⟩ (([39, 97, -1, 0xD800, 34, 39, 59] : List Int32).map .ofCode) = some text ∧
        (Cursor.start text.toSource).next? = some (u, e) ∧
        u.kind = .ofLexeme (.ident ['a', '\uFFFD', '\uFFFD', '\x22', '\x27']) ∧
        u.span = ⟨0, 4⟩ ∧ e.atEnd = true := by
  have h : Cursor.next? ⟨([39, 97, -1, 0xD800, 34, 39, 59] : List Int32).map .ofCode, 1⟩ =
      some (⟨.ident ['a', '\uFFFD', '\uFFFD', '\x22', '\x27'], 1, 5⟩,
        ⟨([39, 97, -1, 0xD800, 34, 39, 59] : List Int32).map .ofCode, 6⟩) := by decide +kernel
  obtain ⟨text, u, e, htext, hnext, hkind, hspan, -, hend⟩ := next?_of_token_text h
  exact ⟨h, text, u, e, htext, hnext, hkind, hspan, hend⟩

end LetLang
