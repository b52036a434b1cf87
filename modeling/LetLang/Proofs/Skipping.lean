import LetLang.Proofs.Run

/-!
# Skipping tokens

Skipping with a condition reads the longest run of tokens that all satisfy it. It comes to stand where
nothing more can be read, at the end or before a quote that never closes, or before a token that does
not satisfy the condition; so skipping once more does not move the cursor, and skipping single tokens
for as long as that works leads to the same place. The condition can be any condition on lexemes.
-/
namespace LetLang.Cursor

variable {p : Lexeme → Bool} {c d e : Cursor} {ts us : List Token}

/-- The run passes over tokens that satisfy the condition and stops where no further one does. -/
structure Skips (p : Lexeme → Bool) (c : Cursor) (ts : List Token) (d : Cursor) : Prop where
  run : c.Run ts d
  satisfied : ∀ t ∈ ts, p t.lexeme = true
  stopped : ∀ t e, d.next? = some (t, e) → p t.lexeme = false

namespace Skips

theorem stay (stopped : ∀ t e, c.next? = some (t, e) → p t.lexeme = false) : Skips p c [] c :=
  ⟨.stay c, nofun, stopped⟩

theorem step {t : Token} (first : c.next? = some (t, d)) (ht : p t.lexeme = true)
    (others : Skips p d ts e) : Skips p c (t :: ts) e :=
  ⟨.step first others.run, List.forall_mem_cons.mpr ⟨ht, others.satisfied⟩, others.stopped⟩

/-- Where skipping has come to stand, it stays. -/
theorem again (h : Skips p c ts d) : Skips p d [] d :=
  stay h.stopped

end Skips

theorem exists_skips (p : Lexeme → Bool) (c : Cursor) : ∃ ts d, Skips p c ts d := by
  induction c using next?_induction with
  | stop c hn =>
    refine ⟨[], c, .stay fun t e he => ?_⟩
    rw [hn] at he
    cases he
  | step c d t first ih =>
    by_cases ht : p t.lexeme = true
    · obtain ⟨ts, e, others⟩ := ih
      exact ⟨t :: ts, e, others.step first ht⟩
    · refine ⟨[], c, .stay fun u e he => ?_⟩
      rw [first] at he
      cases he
      simpa using ht

namespace Skips

/-- The result of skipping is the last token that is passed over. -/
theorem skipWhile_eq (h : Skips p c ts d) : c.skipWhile p = (ts.getLast?, d) := by
  obtain ⟨run, satisfied, stopped⟩ := h
  induction run with
  | stay c =>
    cases hn : c.next? with
    | none => exact skipWhile_of_next?_none hn
    | some next =>
      rw [skipWhile_of_next?_some hn, stopped _ _ hn]
      rfl
  | @step c d e t ts first _ ih =>
    obtain ⟨ht, hts⟩ := List.forall_mem_cons.mp satisfied
    rw [skipWhile_of_next?_some first, if_pos ht, ih hts stopped, List.getLast?_cons]
    cases ts.getLast? <;> rfl

/-- No run of tokens that satisfy the condition goes further. -/
theorem longest (h : Skips p c ts d) (run : c.Run us e) (satisfied : ∀ u ∈ us, p u.lexeme = true) :
    us <+: ts := by
  obtain ⟨hrun, -, stopped⟩ := h
  induction run generalizing ts with
  | stay => exact List.nil_prefix
  | step first others ih =>
    obtain ⟨hu, hus⟩ := List.forall_mem_cons.mp satisfied
    cases hrun with
    | stay =>
      have hstop := stopped _ _ first
      rw [hu] at hstop
      cases hstop
    | step first' others' =>
      rw [first] at first'
      cases first'
      exact List.cons_prefix_cons.mpr ⟨rfl, ih hus others'⟩

end Skips

/-- The tokens behind the longest run are what is left of all of them. -/
theorem Skips.dropWhile_tokens (h : Skips p c ts d) :
    (c.tokens.dropWhile fun t => p t.lexeme) = d.tokens := by
  rw [h.run.tokens, List.dropWhile_append_of_pos h.satisfied]
  cases hn : d.next? with
  | none => rw [tokens_of_next?_none hn, List.dropWhile_nil]
  | some next =>
    have hstop := h.stopped _ _ hn
    rw [tokens_of_next?_some hn, List.dropWhile_cons_of_neg (by simpa using hstop)]

/-- Skipping single tokens, until none is passed over, leads from the first cursor to the second. -/
inductive OneByOne (p : Lexeme → Bool) : Cursor → Cursor → Prop
  | done {c : Cursor} (kept : (c.skipOnce p).1 = none) : OneByOne p c (c.skipOnce p).2
  | more {c d : Cursor} (passed : (c.skipOnce p).1.isSome = true)
    (others : OneByOne p (c.skipOnce p).2 d) : OneByOne p c d

theorem skipOnce_of_satisfied {t : Token} (first : c.next? = some (t, d)) (ht : p t.lexeme = true) :
    c.skipOnce p = (some t, d) := by
  unfold skipOnce
  simp only [first, ht, ↓reduceIte]

theorem skipOnce_of_stopped (stopped : ∀ t e, c.next? = some (t, e) → p t.lexeme = false) :
    c.skipOnce p = (none, c) := by
  unfold skipOnce
  cases hn : c.next? with
  | none => rfl
  | some next => simp only [stopped _ _ hn, Bool.false_eq_true, ↓reduceIte]

theorem moves_skipWhile (p : Lexeme → Bool) (c : Cursor) : c.Moves (c.skipWhile p).2 := by
  obtain ⟨ts, d, skips⟩ := exists_skips p c
  rw [skips.skipWhile_eq]
  exact ⟨ts, skips.run⟩

theorem moves_skipSpaces (c : Cursor) : c.Moves c.skipSpaces.2 :=
  moves_skipWhile Lexeme.isSpace c

theorem Moves.of_next?_skipSpaces {t : Token} (h : c.skipSpaces.2.next? = some (t, d)) : c.Moves d :=
  (moves_skipSpaces c).trans (.of_next? h)

theorem moves_skipOnce (p : Lexeme → Bool) (c : Cursor) : c.Moves (c.skipOnce p).2 := by
  unfold skipOnce
  cases hn : c.next? with
  | none => exact .refl c
  | some next =>
    obtain ⟨t, d⟩ := next
    by_cases hp : p t.lexeme = true
    · simp only [hp, ↓reduceIte]
      exact .of_next? hn
    · simp only [hp, Bool.false_eq_true, ↓reduceIte]
      exact .refl c

/-- Skipping single tokens ends, and it can only end where the longest run does. -/
theorem Skips.oneByOne_iff (h : Skips p c ts d) : OneByOne p c e ↔ e = d := by
  obtain ⟨run, satisfied, stopped⟩ := h
  induction run with
  | stay c =>
    have hkept := skipOnce_of_stopped stopped
    constructor
    · rintro (_ | ⟨passed, _⟩)
      · rw [hkept]
      · rw [hkept] at passed
        cases passed
    · intro he
      have hdone : OneByOne p c (c.skipOnce p).2 := .done (by rw [hkept])
      rw [hkept] at hdone
      exact he ▸ hdone
  | @step c d' d t ts first _ ih =>
    obtain ⟨ht, hts⟩ := List.forall_mem_cons.mp satisfied
    have hpassed := skipOnce_of_satisfied first ht
    rw [← ih hts stopped]
    constructor
    · rintro (kept | ⟨_, others⟩)
      · rw [hpassed] at kept
        cases kept
      · rwa [hpassed] at others
    · intro others
      exact .more (by rw [hpassed]; rfl) (by rwa [hpassed])

/-- Skipping reads the longest run of tokens that satisfy the condition, gives the last of them, and
stops for good where skipping single tokens ends. -/
theorem skipWhile_reads_longest_run (p : Lexeme → Bool) (c : Cursor) :
    ∃ ts, c.Run ts (c.skipWhile p).2 ∧ (∀ t ∈ ts, p t.lexeme = true) ∧
      (∀ us d, c.Run us d → (∀ u ∈ us, p u.lexeme = true) → us <+: ts) ∧
      (c.skipWhile p).1 = ts.getLast? ∧ (ts = [] → c.skipWhile p = (none, c)) ∧
      (∀ t d, (c.skipWhile p).2.next? = some (t, d) → p t.lexeme = false) ∧
      (c.skipWhile p).2.skipWhile p = (none, (c.skipWhile p).2) ∧
      ∀ d, OneByOne p c d ↔ d = (c.skipWhile p).2 := by
  obtain ⟨ts, d, skips⟩ := exists_skips p c
  have hnothing (hnil : ts = []) : c.skipWhile p = (none, c) := by
    obtain rfl := hnil
    cases skips.run
    exact skips.skipWhile_eq
  rw [skips.skipWhile_eq] at hnothing ⊢
  exact ⟨ts, skips.run, skips.satisfied, fun us e run hus => skips.longest run hus, rfl, hnothing,
    skips.stopped, skips.again.skipWhile_eq, fun e => skips.oneByOne_iff⟩

example :
    (Cursor.start ("a 'b".toList.map .char)).skipWhile (fun _ => true) =
      (some ⟨.space .blank, 1, 1⟩, ⟨"a 'b".toList.map .char, 2⟩) := by
  decide +kernel

end LetLang.Cursor
