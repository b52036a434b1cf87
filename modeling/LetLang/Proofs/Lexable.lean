import Mathlib.Data.List.Chain
import LetLang.Proofs.Agreement
import LetLang.Proofs.Lossless

/-!
# The kinds that a source can have

A kind is a class, a literal and a delimiter, which need not fit together. A source has only spellable
kinds: those of characters that stand alone, quoted texts that do not hold their delimiter, and words,
classed as keywords if they are spelled like one and as names otherwise. No word stands right before a
word or a quoted text, since it would run on into it.

Nothing else restricts the kinds of a source: a list that meets these conditions is read back from its
spelling. Lexemes serve as the normal form of spellable kinds, so both directions are taken from what is
known about readable lists of lexemes.
-/
namespace LetLang

namespace Kind

/-- The kind of a character that stands alone. -/
def IsSingle (k : Kind) : Prop :=
  ∃ r, ofSourceChar? r = some k

/-- A quoted text that does not hold its delimiter. -/
def IsQuoted (k : Kind) : Prop :=
  ∃ (q : Quote) (text : List Char), q.char ∉ text ∧
    k = ⟨Text.ofString Lexeme.Class.quoted.name, Text.ofChars text, some q.sourceChar⟩

/-- The class of a word. -/
def wordClass (word : List Char) : Lexeme.Class :=
  if (Keyword.ofWord? word).isSome then .keyword else .ident

/-- A word, classed by its spelling. -/
def IsWord (k : Kind) : Prop :=
  ∃ word, LetLang.IsWord word ∧ k = ⟨Text.ofString (wordClass word).name, Text.ofChars word, none⟩

def Spellable (k : Kind) : Prop :=
  k.IsSingle ∨ k.IsQuoted ∨ k.IsWord

/-- Spellable kinds in which no word stands right before a word or a quoted text. -/
structure Lexable (ks : List Kind) : Prop where
  spellable : ∀ k ∈ ks, k.Spellable
  apart : ks.IsChain fun k k' => k.IsWord → ¬ k'.IsWord ∧ ¬ k'.IsQuoted

/-! ## Spellable kinds as lexemes -/

theorem isSingle_iff {k : Kind} :
    k.IsSingle ↔ ∃ x : Lexeme, x.standsAlone = true ∧ ofLexeme x = k := by
  constructor
  · rintro ⟨r, hr⟩
    obtain ⟨x, hx, rfl⟩ := Option.map_eq_some_iff.mp hr
    cases r with
    | char c => exact ⟨x, Lexeme.standsAlone_of_ofChar? hx, rfl⟩
    | invalid => cases hx
  · rintro ⟨x, halone, rfl⟩
    obtain ⟨c, -, hc⟩ := Lexeme.exists_char halone
    exact ⟨.char c, Option.map_eq_some_iff.mpr ⟨x, hc, rfl⟩⟩

theorem isQuoted_iff {k : Kind} :
    k.IsQuoted ↔ ∃ q text, (Lexeme.quoted q text).Spellable ∧ ofLexeme (.quoted q text) = k := by
  constructor
  · rintro ⟨q, text, hq, rfl⟩
    exact ⟨q, text, hq, rfl⟩
  · rintro ⟨q, text, hq, rfl⟩
    exact ⟨q, text, hq, rfl⟩

theorem ofLexeme_ofWord (word : List Char) :
    ofLexeme (.ofWord word) = ⟨Text.ofString (wordClass word).name, Text.ofChars word, none⟩ := by
  have hliteral := Lexeme.literal_ofWord word
  unfold Lexeme.ofWord at hliteral ⊢
  unfold wordClass ofLexeme
  split
  next k hk => simp_all [Lexeme.classOf, Lexeme.quote?]
  next hk => simp_all [Lexeme.classOf, Lexeme.quote?]

theorem isWord_iff {k : Kind} :
    k.IsWord ↔ ∃ x : Lexeme, x.isWord = true ∧ x.Spellable ∧ ofLexeme x = k := by
  constructor
  · rintro ⟨word, hword, rfl⟩
    refine ⟨.ofWord word, ?_, Lexeme.spellable_ofWord hword, ofLexeme_ofWord word⟩
    unfold Lexeme.ofWord
    split <;> rfl
  · rintro ⟨x, hword, hx, rfl⟩
    cases x with
    | keyword k =>
      refine ⟨k.spelling, Lexeme.isWord_spelling k, ?_⟩
      rw [← ofLexeme_ofWord, Lexeme.ofWord_spelling]
    | ident name =>
      refine ⟨name, hx.toIsWord, ?_⟩
      rw [← ofLexeme_ofWord, Lexeme.ofWord_of_noKeyword hx.noKeyword]
    | _ => cases hword

theorem isWord_ofLexeme {x : Lexeme} (hx : x.Spellable) :
    (ofLexeme x).IsWord ↔ x.isWord = true := by
  rw [isWord_iff]
  constructor
  · rintro ⟨y, hword, -, hy⟩
    rw [← ofLexeme_inj hy]
    exact hword
  · intro hword
    exact ⟨x, hword, hx, rfl⟩

/-- The lexemes that end a word before them are those of the kinds that may stand behind one. -/
theorem endsWord_ofLexeme {x : Lexeme} (hx : x.Spellable) :
    ¬ (ofLexeme x).IsWord ∧ ¬ (ofLexeme x).IsQuoted ↔ x.standsAlone = true := by
  rw [isWord_ofLexeme hx, isQuoted_iff]
  constructor
  · rintro ⟨hword, hquoted⟩
    cases x with
    | keyword | ident => exact absurd rfl hword
    | quoted q text => exact absurd ⟨q, text, hx, rfl⟩ hquoted
    | _ => rfl
  · intro halone
    constructor
    · intro hword
      cases x with
      | keyword | ident => cases halone
      | _ => cases hword
    · rintro ⟨q, text, -, hy⟩
      rw [← ofLexeme_inj hy] at halone
      cases halone

theorem exists_lexeme {k : Kind} (h : k.Spellable) :
    ∃ x : Lexeme, x.Spellable ∧ ofLexeme x = k := by
  rcases h with h | h | h
  · obtain ⟨x, halone, rfl⟩ := isSingle_iff.mp h
    exact ⟨x, Lexeme.spellable_of_standsAlone halone, rfl⟩
  · obtain ⟨q, text, hq, rfl⟩ := isQuoted_iff.mp h
    exact ⟨_, hq, rfl⟩
  · obtain ⟨x, -, hx, rfl⟩ := isWord_iff.mp h
    exact ⟨x, hx, rfl⟩

theorem spellable_ofLexeme {x : Lexeme} (hx : x.Spellable) : (ofLexeme x).Spellable := by
  by_cases halone : x.standsAlone = true
  · exact .inl (isSingle_iff.mpr ⟨x, halone, rfl⟩)
  · cases x with
    | keyword | ident => exact .inr (.inr ((isWord_ofLexeme hx).mpr rfl))
    | quoted q text => exact .inr (.inl (isQuoted_iff.mpr ⟨q, text, hx, rfl⟩))
    | _ => exact absurd rfl halone

theorem exists_lexemes {ks : List Kind} (h : ∀ k ∈ ks, k.Spellable) :
    ∃ xs : List Lexeme, (∀ x ∈ xs, x.Spellable) ∧ xs.map ofLexeme = ks := by
  induction ks with
  | nil => exact ⟨[], nofun, rfl⟩
  | cons k ks ih =>
    obtain ⟨x, hx, rfl⟩ := exists_lexeme (h k List.mem_cons_self)
    obtain ⟨xs, hxs, rfl⟩ := ih fun k' hk => h k' (List.mem_cons_of_mem _ hk)
    exact ⟨x :: xs, List.forall_mem_cons.mpr ⟨hx, hxs⟩, rfl⟩

end Kind

/-! ## Lists of lexemes and lists of kinds -/

theorem readable_iff {xs : List Lexeme} :
    Readable xs ↔ (∀ x ∈ xs, x.Spellable) ∧
      xs.IsChain fun x y => x.isWord = true → y.standsAlone = true := by
  induction xs with
  | nil => simp [Readable]
  | cons x xs ih =>
    rw [Readable, ih, List.isChain_cons, List.forall_mem_cons]
    constructor
    · rintro ⟨hx, happart, hxs, hchain⟩
      exact ⟨⟨hx, hxs⟩, fun y hy hword => happart hword y hy, hchain⟩
    · rintro ⟨⟨hx, hxs⟩, happart, hchain⟩
      exact ⟨hx, fun hword y hy => happart y hy hword, hxs, hchain⟩

/-- The kinds of spellable lexemes are lexable if the lexemes can be read back. -/
theorem Kind.lexable_map_iff {xs : List Lexeme} (spellable : ∀ x ∈ xs, x.Spellable) :
    Lexable (xs.map ofLexeme) ↔ Readable xs := by
  have hchain : ((xs.map ofLexeme).IsChain fun k k' => k.IsWord → ¬ k'.IsWord ∧ ¬ k'.IsQuoted) ↔
      xs.IsChain fun x y => x.isWord = true → y.standsAlone = true := by
    rw [List.isChain_map]
    apply List.IsChain.iff_of_mem_imp
    intro x y hx hy
    rw [isWord_ofLexeme (spellable x hx), endsWord_ofLexeme (spellable y hy)]
  rw [readable_iff]
  constructor
  · intro h
    exact ⟨spellable, hchain.mp h.apart⟩
  · rintro ⟨-, h⟩
    refine ⟨fun k hk => ?_, hchain.mpr h⟩
    obtain ⟨x, hx, rfl⟩ := List.mem_map.mp hk
    exact spellable_ofLexeme (spellable x hx)

/-! ## Reading leaves words apart -/

/-- What is read where no word can begin or go on stands alone. -/
theorem standsAlone_of_scan {rs : Source} {x : Lexeme} {n : Nat} (h : scan rs = some (x, n))
    (hrs : ∀ r, rs.head? = some r → r.inWord = false) : x.standsAlone = true := by
  cases rs with
  | nil => cases h
  | cons r rest =>
    have hr := hrs r rfl
    simp only [scan] at h
    split at h
    next y hy =>
      cases h
      cases r with
      | char c => exact Lexeme.standsAlone_of_ofChar? hy
      | invalid => cases hy
    next hnone =>
      rw [SourceChar.inWord, hnone] at hr
      cases hr

/-- The lexemes of a run can be read back: behind a word comes one that stands alone. -/
theorem Cursor.Run.readable {c d : Cursor} {ts : List Token} (run : c.Run ts d) :
    Readable (ts.map Token.lexeme) := by
  induction run with
  | stay => trivial
  | step first others ih =>
    obtain ⟨x, n, hscan, rfl, rfl⟩ := scan_of_next? first
    refine ⟨spellable_of_scan hscan, fun hword y hy => ?_, ih⟩
    cases others with
    | stay => cases hy
    | step second _ =>
      cases hy
      obtain ⟨piece, rest, hrest, hlength, -, hends⟩ := scan_splits hscan
      obtain ⟨y, m, hnext, rfl, -⟩ := scan_of_next? second
      apply standsAlone_of_scan hnext
      rw [rest_add, hrest, List.drop_left' hlength]
      exact hends hword

/-- The lists of kinds that sources have are the lexable ones: such a list is read back, up to the end,
from the spellings of its kinds one after another, and every run reads such a list. -/
theorem lexable_kinds_are_read :
    (∀ ks : List Kind, Kind.Lexable ks →
      ∃ ts, ReadsAll (Text.toSource (ks.flatMap Kind.spelling)) ts ∧ ts.map Token.kind = ks) ∧
    ∀ (c d : Cursor) (ts : List Token), c.Run ts d → Kind.Lexable (ts.map Token.kind) := by
  constructor
  · intro ks h
    obtain ⟨xs, hxs, rfl⟩ := Kind.exists_lexemes h.spellable
    obtain ⟨ts, reads, rfl⟩ := exists_readsAll_spellAll ((Kind.lexable_map_iff hxs).mp h)
    refine ⟨ts, ?_, ?_⟩
    · rw [Kind.flatMap_spelling, Text.toSource_ofChars]
      exact reads
    · rw [List.map_map]
      rfl
  · intro c d ts run
    have hspellable := (readable_iff.mp run.readable).1
    have hlexable := (Kind.lexable_map_iff hspellable).mpr run.readable
    rw [List.map_map] at hlexable
    exact hlexable

theorem lexable_kinds_are_read_quote_in_word :
    Kind.Lexable ([.ident ['a', '\x27', 'b'], .bracket ⟨.paren, true⟩, .quoted .double ['x', '\x27'],
        .keyword .letKw].map Kind.ofLexeme) ∧
      ∃ ts, ReadsAll ("a'b(\"x'\"let".toList.map .char) ts ∧
        ts.map Token.kind = [.ident ['a', '\x27', 'b'], .bracket ⟨.paren, true⟩,
          .quoted .double ['x', '\x27'], .keyword .letKw].map Kind.ofLexeme := by
  have hplain : ['a', '\x27', 'b'].all (fun c => (Lexeme.ofChar? c).isNone) = true := by decide
  have hname : IsName ['a', '\x27', 'b'] := by
    refine ⟨⟨by decide, fun c hc => ?_, ?_⟩, by decide⟩
    · exact Option.isNone_iff_eq_none.mp (List.all_eq_true.mp hplain c hc)
    · rintro c ⟨⟩
      decide
  have htext : Quote.double.char ∉ ['x', '\x27'] := by decide
  have hreadable : Readable [.ident ['a', '\x27', 'b'], .bracket ⟨.paren, true⟩,
      .quoted .double ['x', '\x27'], .keyword .letKw] := by
    refine ⟨hname, fun _ y hy => ?_, trivial, nofun, htext, nofun, trivial, fun _ => nofun, trivial⟩
    cases hy
    rfl
  have hlexable := (Kind.lexable_map_iff (readable_iff.mp hreadable).1).mpr hreadable
  obtain ⟨ts, reads, hts⟩ := lexable_kinds_are_read.1 _ hlexable
  have hsource : Text.toSource (([.ident ['a', '\x27', 'b'], .bracket ⟨.paren, true⟩,
      .quoted .double ['x', '\x27'], .keyword .letKw].map Kind.ofLexeme).flatMap Kind.spelling) =
      "a'b(\"x'\"let".toList.map .char := by decide +kernel
  rw [hsource] at reads
  exact ⟨hlexable, ts, reads, hts⟩

end LetLang
