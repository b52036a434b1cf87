import LetLang.Proofs.Run

/-!
# Lexemes and their spelling

The lexemes that a source can have are the spellable ones: a name is a word that is no keyword, and a
quoted text does not hold its own delimiter. The spellings of spellable lexemes, written one after
another, are read back as these lexemes, provided that a word is only followed by a lexeme that stands
alone, since it would run into anything else.
-/
namespace LetLang

/-! ## Words and names -/

/-- Characters that are read as one word. -/
structure IsWord (cs : List Char) : Prop where
  ne_nil : cs ≠ []
  plain : ∀ c ∈ cs, Lexeme.ofChar? c = none
  unquoted : ∀ c, cs.head? = some c → Quote.ofChar? c = none

/-- A word that is no keyword. -/
structure IsName (cs : List Char) : Prop extends IsWord cs where
  noKeyword : Keyword.ofWord? cs = none

namespace Lexeme

/-- A lexeme that a source can have. -/
def Spellable : Lexeme → Prop
  | .ident name => IsName name
  | .quoted q text => q.char ∉ text
  | _ => True

def isWord : Lexeme → Bool
  | .keyword _ | .ident _ => true
  | _ => false

/-- A lexeme of a single character that ends any word before it. -/
def standsAlone : Lexeme → Bool
  | .keyword _ | .ident _ | .quoted _ _ => false
  | _ => true

theorem exists_char {x : Lexeme} (h : x.standsAlone = true) :
    ∃ c, x.spelling = [c] ∧ ofChar? c = some x := by
  cases x with
  | bracket b =>
    obtain ⟨shape, isOpen⟩ := b
    refine ⟨_, rfl, ?_⟩
    cases shape <;> cases isOpen <;> decide
  | space s =>
    refine ⟨_, rfl, ?_⟩
    cases s <;> decide
  | punct p =>
    refine ⟨_, rfl, ?_⟩
    cases p <;> decide
  | operator o =>
    refine ⟨_, rfl, ?_⟩
    cases o <;> decide
  | digit d =>
    have hd : ∀ d : Digit, ofChar? d.toChar = some (.digit d) := by decide
    exact ⟨_, rfl, hd d⟩
  | keyword | ident | quoted => cases h

theorem standsAlone_of_ofChar? {c : Char} {x : Lexeme} (h : ofChar? c = some x) :
    x.standsAlone = true := by
  simp only [ofChar?, Option.or_eq_some_iff, Option.map_eq_some_iff] at h
  obtain ((((⟨b, -, rfl⟩ | ⟨-, s, -, rfl⟩) | ⟨-, p, -, rfl⟩) | ⟨-, d, -, rfl⟩) | ⟨-, o, -, rfl⟩) := h
  all_goals rfl

theorem spellable_of_standsAlone {x : Lexeme} (h : x.standsAlone = true) : x.Spellable := by
  cases x with
  | ident | quoted => cases h
  | _ => trivial

theorem isWord_spelling (k : Keyword) : IsWord k.spelling := by
  have hplain : k.spelling.all (fun c => (ofChar? c).isNone) = true := by
    cases k <;> decide
  constructor
  · cases k <;> decide
  · intro c hc
    exact Option.isNone_iff_eq_none.mp (List.all_eq_true.mp hplain c hc)
  · cases k <;> rintro c ⟨⟩ <;> decide

theorem ofWord_spelling (k : Keyword) : ofWord k.spelling = .keyword k := by
  rw [ofWord, Keyword.ofWord?_spelling]

theorem ofWord_of_noKeyword {cs : List Char} (h : Keyword.ofWord? cs = none) :
    ofWord cs = .ident cs := by
  rw [ofWord, h]

theorem ofChar?_quote (q : Quote) : ofChar? q.char = none := by
  cases q <;> decide

/-- The lexeme of a word is spellable. -/
theorem spellable_ofWord {cs : List Char} (h : IsWord cs) : (ofWord cs).Spellable := by
  unfold ofWord
  split
  next => trivial
  next hk => exact ⟨h, hk⟩

end Lexeme

/-! ## Reading a lexeme -/

namespace SourceChar

theorem ofChar?_toChar {r : SourceChar} (h : r.lexeme? = none) : Lexeme.ofChar? r.toChar = none := by
  cases r with
  | char c => exact h
  | invalid code _ =>
    change Lexeme.ofChar? '\uFFFD' = none
    decide

theorem quote?_toChar {r : SourceChar} (h : r.quote? = none) : Quote.ofChar? r.toChar = none := by
  cases r with
  | char c => exact h
  | invalid code _ =>
    change Quote.ofChar? '\uFFFD' = none
    decide

theorem eq_of_toChar {r : SourceChar} {q : Quote} (h : r.toChar = q.char) : r = q.sourceChar := by
  cases r with
  | char c => exact congrArg _ h
  | invalid code _ =>
    change '\uFFFD' = q.char at h
    cases q <;> exact absurd h (by decide)

end SourceChar

/-- What is read off a source is spellable. -/
theorem spellable_of_scan {rs : Source} {x : Lexeme} {n : Nat} (h : scan rs = some (x, n)) :
    x.Spellable := by
  cases rs with
  | nil => cases h
  | cons r rest =>
    simp only [scan] at h
    split at h
    next y hy =>
      cases h
      cases r with
      | char c => exact Lexeme.spellable_of_standsAlone (Lexeme.standsAlone_of_ofChar? hy)
      | invalid => cases hy
    next hnone =>
      split at h
      next q _ =>
        split at h
        next =>
          cases h
          intro hmem
          obtain ⟨s, hs, hc⟩ := List.mem_map.mp hmem
          have hne := List.all_eq_true.mp List.all_takeWhile s hs
          simp [SourceChar.eq_of_toChar hc] at hne
        next => cases h
      next hquote =>
        cases h
        refine Lexeme.spellable_ofWord ⟨by simp [spell], ?_, ?_⟩
        · intro c hc
          obtain ⟨s, hs, rfl⟩ := List.mem_map.mp hc
          rcases List.mem_cons.mp hs with rfl | hs
          · exact SourceChar.ofChar?_toChar hnone
          · have hin := List.all_eq_true.mp List.all_takeWhile s hs
            exact SourceChar.ofChar?_toChar (Option.isNone_iff_eq_none.mp hin)
        · rintro c ⟨⟩
          exact SourceChar.quote?_toChar hquote

theorem spellable_tokensFrom (pos : Nat) (rs : Source) :
    ∀ t ∈ tokensFrom pos rs, t.lexeme.Spellable := by
  fun_induction tokensFrom pos rs with
  | case1 => exact fun t ht => absurd ht List.not_mem_nil
  | case2 pos rs x n hs ih =>
    intro t ht
    rcases List.mem_cons.mp ht with rfl | ht
    · exact spellable_of_scan hs
    · exact ih t ht

theorem Cursor.spellable_tokens (c : Cursor) : ∀ t ∈ c.tokens, t.lexeme.Spellable :=
  spellable_tokensFrom c.pos c.rest

/-! ## Reading a spelling back -/

theorem takeWhile_of_head {α : Type} {p : α → Bool} {as bs : List α} (has : ∀ a ∈ as, p a = true)
    (hbs : ∀ b, bs.head? = some b → p b = false) : (as ++ bs).takeWhile p = as := by
  rw [List.takeWhile_append_of_pos has]
  cases bs with
  | nil => simp
  | cons b bs => rw [List.takeWhile_cons_of_neg (by simp [hbs b rfl]), List.append_nil]

theorem takeWhile_ne_of_notMem {α : Type} [DecidableEq α] {a : α} {as : List α} (h : a ∉ as)
    (bs : List α) : (as ++ a :: bs).takeWhile (fun b => decide (b ≠ a)) = as := by
  apply takeWhile_of_head
  · intro b hb
    have hne : b ≠ a := fun he => h (he ▸ hb)
    simpa using hne
  · rintro b ⟨⟩
    simp

/-- A word is read back where it does not run into what follows. -/
theorem scan_word {cs : List Char} (h : IsWord cs) {rest : Source}
    (hrest : ∀ r, rest.head? = some r → r.inWord = false) :
    scan (cs.map .char ++ rest) = some (.ofWord cs, cs.length) := by
  cases cs with
  | nil => exact absurd rfl h.ne_nil
  | cons c cs =>
    have hc : (SourceChar.char c).lexeme? = none := h.plain c List.mem_cons_self
    have hq : (SourceChar.char c).quote? = none := h.unquoted c rfl
    have htake : (cs.map SourceChar.char ++ rest).takeWhile SourceChar.inWord = cs.map .char := by
      refine takeWhile_of_head ?_ hrest
      intro r hr
      obtain ⟨d, hd, rfl⟩ := List.mem_map.mp hr
      exact Option.isNone_iff_eq_none.mpr (h.plain d (List.mem_cons_of_mem c hd))
    have hspell : spell (SourceChar.char c :: cs.map .char) = c :: cs := spell_char (c :: cs)
    rw [List.map_cons, List.cons_append, scan]
    simp only [hc, hq, htake, hspell, List.length_cons, List.length_map]

theorem scan_quoted {q : Quote} {text : List Char} (h : q.char ∉ text) (rest : Source) :
    scan ((Lexeme.quoted q text).spelling.map .char ++ rest) =
      some (.quoted q text, text.length + 2) := by
  have hc : (SourceChar.char q.char).lexeme? = none := Lexeme.ofChar?_quote q
  have hq : (SourceChar.char q.char).quote? = some q := SourceChar.quote?_eq_some_iff.mpr rfl
  have happ : (text ++ [q.char]).map SourceChar.char ++ rest =
      text.map .char ++ q.sourceChar :: rest := by
    simp [Quote.sourceChar]
  have hmem : q.sourceChar ∈ text.map SourceChar.char ++ q.sourceChar :: rest := by simp
  have hbody : q.sourceChar ∉ text.map SourceChar.char := by
    simpa [Quote.sourceChar] using h
  have htake := takeWhile_ne_of_notMem hbody rest
  rw [Lexeme.spelling, List.map_cons, List.cons_append, happ, scan]
  simp only [hc, hq, hmem, htake, spell_char, List.length_map, ↓reduceIte]

theorem scan_spelling {x : Lexeme} (hx : x.Spellable) {rest : Source}
    (hrest : x.isWord = true → ∀ r, rest.head? = some r → r.inWord = false) :
    scan (x.spelling.map .char ++ rest) = some (x, x.spelling.length) := by
  by_cases halone : x.standsAlone = true
  · obtain ⟨c, hspell, hc⟩ := Lexeme.exists_char halone
    have hlex : (SourceChar.char c).lexeme? = some x := hc
    rw [hspell, List.map_singleton, List.singleton_append, scan]
    simp only [hlex, List.length_singleton]
  · cases x with
    | keyword k =>
      have hscan := scan_word (Lexeme.isWord_spelling k) (hrest rfl)
      rw [Lexeme.ofWord_spelling] at hscan
      exact hscan
    | ident name =>
      have hscan := scan_word hx.toIsWord (hrest rfl)
      rw [Lexeme.ofWord_of_noKeyword hx.noKeyword] at hscan
      exact hscan
    | quoted q text =>
      rw [scan_quoted hx rest]
      simp [Lexeme.spelling]
    | _ => exact absurd rfl halone

/-- Spellable lexemes in which a word is followed only by a lexeme that stands alone. -/
def Readable : List Lexeme → Prop
  | [] => True
  | x :: xs =>
    x.Spellable ∧ (x.isWord = true → ∀ y, xs.head? = some y → y.standsAlone = true) ∧ Readable xs

/-- The spellings of some lexemes one after another. -/
def spellAll (xs : List Lexeme) : List Char :=
  xs.flatMap Lexeme.spelling

theorem head_spellAll {xs : List Lexeme} (h : ∀ y, xs.head? = some y → y.standsAlone = true) :
    ∀ r, ((spellAll xs).map SourceChar.char).head? = some r → r.inWord = false := by
  cases xs with
  | nil => exact nofun
  | cons y ys =>
    obtain ⟨c, hspell, hc⟩ := Lexeme.exists_char (h y rfl)
    intro r hr
    rw [spellAll, List.flatMap_cons, hspell, List.singleton_append, List.map_cons,
      List.head?_cons] at hr
    cases hr
    simp [SourceChar.inWord, SourceChar.lexeme?, hc]

/-- A cursor before the spellings of readable lexemes reads them back up to the end. -/
theorem exists_run_spellAll {xs : List Lexeme} (h : Readable xs) (c : Cursor)
    (hc : c.rest = (spellAll xs).map .char) :
    ∃ ts d, c.Run ts d ∧ ts.map Token.lexeme = xs ∧ d.atEnd = true := by
  induction xs generalizing c with
  | nil =>
    have hend : c.source.length ≤ c.pos := List.drop_eq_nil_iff.mp hc
    exact ⟨[], c, .stay c, rfl, Cursor.atEnd_iff.mpr hend⟩
  | cons x xs ih =>
    obtain ⟨hx, happart, hxs⟩ := h
    have hrest : c.rest = x.spelling.map .char ++ (spellAll xs).map .char := by
      rw [hc, spellAll, List.flatMap_cons, List.map_append]
      rfl
    have hscan : scan c.rest = some (x, x.spelling.length) := by
      rw [hrest]
      exact scan_spelling hx fun hw => head_spellAll (happart hw)
    have hnext : c.next? = some (⟨x, c.pos, c.pos + x.spelling.length - 1⟩,
        ⟨c.source, c.pos + x.spelling.length⟩) := by
      rw [Cursor.next?, hscan]
    obtain ⟨ts, d, run, hts, hend⟩ := ih hxs ⟨c.source, c.pos + x.spelling.length⟩ (by
      rw [Cursor.rest, ← List.drop_drop]
      change c.rest.drop x.spelling.length = _
      rw [hrest]
      exact List.drop_left' (by simp))
    exact ⟨_ :: ts, d, .step hnext run, by simp [hts], hend⟩

/-- Readable lexemes are read back from their spellings. -/
theorem exists_readsAll_spellAll {xs : List Lexeme} (h : Readable xs) :
    ∃ ts, ReadsAll ((spellAll xs).map .char) ts ∧ ts.map Token.lexeme = xs := by
  obtain ⟨ts, d, run, hts, hend⟩ := exists_run_spellAll h (.start _) rfl
  exact ⟨ts, ⟨d, run, hend⟩, hts⟩

end LetLang
