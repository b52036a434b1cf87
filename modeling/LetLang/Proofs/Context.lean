import LetLang.Proofs.Grammar

/-!
# What follows a phrase

A derivation does not depend on the tokens behind its phrase, except that a number must not run on. So
the rest of the tokens can be replaced by any other that begins with a digit only if it did before; in
particular it can be cut off.
-/
namespace LetLang.Grammar

open Parse (Options)

/-- The second list begins with a digit only if the first one does. -/
def NoNewDigit (rest rest' : List Token) : Prop :=
  DigitFirst rest' → DigitFirst rest

theorem NoNewDigit.append {rest rest' : List Token} (h : NoNewDigit rest rest') (p : List Token) :
    NoNewDigit (p ++ rest) (p ++ rest') := by
  cases p with
  | nil => exact h
  | cons t p => exact id

theorem noNewDigit_cons (t : Token) (rest rest' : List Token) :
    NoNewDigit (t :: rest) (t :: rest') :=
  id

/-- What stands behind a list can be cut off: it begins as before, or it is empty. -/
theorem noNewDigit_append_left (rest more : List Token) : NoNewDigit (rest ++ more) rest := by
  intro hfirst
  cases rest with
  | nil =>
    obtain ⟨d, hd⟩ := hfirst
    cases hd
  | cons t rest => exact hfirst

theorem Spaces.context {ts rest : List Token} (ws : Spaces ts rest) :
    ∃ p, ts = p ++ rest ∧ ∀ rest', Spaces (p ++ rest') rest' := by
  induction ws with
  | none => exact ⟨[], rfl, Spaces.none⟩
  | @more s first last ts rest _ ih =>
    obtain ⟨p, rfl, hp⟩ := ih
    exact ⟨⟨.space s, first, last⟩ :: p, rfl, fun rest' => .more (hp rest')⟩

/-- Spaces together with the token behind them keep a number before them from running on. -/
theorem Spaces.context_token {ts rest : List Token} {t : Token} (ws : Spaces ts (t :: rest)) :
    ∃ p, ts = p ++ rest ∧
      ∀ rest', Spaces (p ++ rest') (t :: rest') ∧ NoNewDigit ts (p ++ rest') := by
  obtain ⟨p, rfl, hp⟩ := ws.context
  refine ⟨p ++ [t], by simp, fun rest' => ?_⟩
  rw [List.append_assoc]
  exact ⟨hp (t :: rest'), (noNewDigit_cons t rest rest').append p⟩

theorem Ending.context {stop stop' : Int} {ts rest : List Token}
    (ending : Ending stop ts stop' rest) :
    ∃ p, ts = p ++ rest ∧ ∀ rest', Ending stop (p ++ rest') stop' rest' := by
  cases ending with
  | none => exact ⟨[], rfl, Ending.none⟩
  | semicolon ws =>
    obtain ⟨p, rfl, hp⟩ := ws.context_token
    exact ⟨p, rfl, fun rest' => .semicolon (hp rest').1⟩

/-- A derivation in its context: the tokens of the phrase, and the same derivation before any other
tokens that do not make a number run on. -/
theorem Derives.context {o : Options} {φ : Phrase} {ts rest : List Token}
    (h : Derives o φ ts rest) :
    ∃ p, ts = p ++ rest ∧ ∀ rest', NoNewDigit rest rest' → Derives o φ (p ++ rest') rest' := by
  induction h with
  | noStmt => exact ⟨[], rfl, fun rest' _ => .noStmt rest'⟩
  | moreStmts ws _ _ ihs ihss =>
    obtain ⟨c, rfl, hc⟩ := ihss
    obtain ⟨b, rfl, hb⟩ := ihs
    obtain ⟨a, rfl, ha⟩ := ws.context
    refine ⟨a ++ (b ++ c), by simp, fun rest' hr => ?_⟩
    rw [List.append_assoc, List.append_assoc]
    exact .moreStmts (ha _) (hb _ (hr.append c)) (hc _ hr)
  | letStmt _ ih =>
    obtain ⟨p, rfl, hp⟩ := ih
    exact ⟨p, rfl, fun rest' hr => .letStmt (hp rest' hr)⟩
  | exprStmt _ ih =>
    obtain ⟨p, rfl, hp⟩ := ih
    exact ⟨p, rfl, fun rest' hr => .exprStmt (hp rest' hr)⟩
  | @binding first last _ _ _ _ _ _ _ _ _ _ _ _ _ ws ws₁ ws₂ _ ending ih =>
    obtain ⟨e, rfl, he⟩ := ending.context
    obtain ⟨d, rfl, hd⟩ := ih
    obtain ⟨c, rfl, hc⟩ := ws₂.context
    obtain ⟨b, rfl, hb⟩ := ws₁.context_token
    obtain ⟨a, rfl, ha⟩ := ws.context_token
    refine ⟨⟨.keyword .letKw, first, last⟩ :: (a ++ (b ++ (c ++ (d ++ e)))), by simp, fun rest' hr => ?_⟩
    simp only [List.cons_append, List.append_assoc]
    exact .binding (ha _).1 (hb _).1 (hc _) (hd _ (hr.append e)) (he _)
  | stated _ ending ih =>
    obtain ⟨b, rfl, hb⟩ := ending.context
    obtain ⟨a, rfl, ha⟩ := ih
    refine ⟨a ++ b, by simp, fun rest' hr => ?_⟩
    rw [List.append_assoc]
    exact .stated (ha _ (hr.append b)) (hb _)
  | bare _ ih =>
    obtain ⟨p, rfl, hp⟩ := ih
    exact ⟨p, rfl, fun rest' hr => .bare (hp rest' hr)⟩
  | call _ ws ws₁ _ ws₂ ihc ihi =>
    obtain ⟨e, rfl, he⟩ := ws₂.context_token
    obtain ⟨d, rfl, hd⟩ := ihi
    obtain ⟨c, rfl, hc⟩ := ws₁.context
    obtain ⟨b, rfl, hb⟩ := ws.context_token
    obtain ⟨a, rfl, ha⟩ := ihc
    refine ⟨a ++ (b ++ (c ++ (d ++ e))), by simp, fun rest' _ => ?_⟩
    simp only [List.append_assoc]
    exact .call (ha _ (hb _).2) (hb _).1 (hc _) (hd _ (he _).2) (he _).1
  | target _ ih =>
    obtain ⟨p, rfl, hp⟩ := ih
    exact ⟨p, rfl, fun rest' hr => .target (hp rest' hr)⟩
  | @field _ dotFirst dotLast first last name _ _ on _ ih =>
    obtain ⟨p, rfl, hp⟩ := ih
    refine ⟨p ++ [⟨.punct .fullStop, dotFirst, dotLast⟩, ⟨.ident name, first, last⟩], by simp,
      fun rest' _ => ?_⟩
    rw [List.append_assoc]
    exact .field on (hp _ (noNewDigit_cons _ _ _))
  | ident name first last =>
    exact ⟨[_], rfl, fun rest' _ => .ident name first last rest'⟩
  | trueLit first last => exact ⟨[_], rfl, fun rest' _ => .trueLit first last rest'⟩
  | falseLit first last => exact ⟨[_], rfl, fun rest' _ => .falseLit first last rest'⟩
  | quoted q text first last => exact ⟨[_], rfl, fun rest' _ => .quoted q text first last rest'⟩
  | numeral _ ih =>
    obtain ⟨p, rfl, hp⟩ := ih
    exact ⟨p, rfl, fun rest' hr => .numeral (hp rest' hr)⟩
  | braced on _ ih =>
    obtain ⟨p, rfl, hp⟩ := ih
    exact ⟨p, rfl, fun rest' hr => .braced on (hp rest' hr)⟩
  | @number t run _ _ digits maximal fits =>
    exact ⟨t :: run, rfl, fun rest' hr => .number digits (fun hd => maximal (hr hd)) fits⟩
  | @block _ first last _ _ _ _ _ _ ws ih =>
    obtain ⟨b, rfl, hb⟩ := ws.context_token
    obtain ⟨a, rfl, ha⟩ := ih
    refine ⟨⟨.bracket ⟨.curly, true⟩, first, last⟩ :: (a ++ b), by simp, fun rest' _ => ?_⟩
    rw [List.cons_append, List.append_assoc]
    exact .block (ha _ (hb _).2) (hb _).1

end LetLang.Grammar
