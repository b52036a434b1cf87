import LetLang.Tree.Layout
import LetLang.Proofs.WellFormed

/-!
# The lexemes of a written tree

A well-formed tree is written as the spellings of a list of lexemes. The list is given here by the shape
of the tree, with the spaces that a style puts between them, and it can be read back: behind every word
stands a bracket, a punctuation mark or a space.
-/
namespace LetLang

open Parse (Options)

/-- The characters of a text that has no stray bytes. -/
def Text.plain (t : Text) : List Char :=
  t.chars?.getD []

@[simp] theorem Text.plain_ofChars (cs : List Char) : (Text.ofChars cs).plain = cs := by
  simp [Text.plain]

/-- An indentation as text. -/
def Text.ofSpaces (ws : List Space) : Text :=
  Text.ofChars (ws.map Space.char)

/-- The delimiter a string is written with. -/
def Quote.ofDelimiter (quote : Option SourceChar) : Quote :=
  (quote.bind SourceChar.quote?).getD .double

theorem Quote.ofDelimiter_sourceChar (q : Quote) : ofDelimiter (some q.sourceChar) = q := by
  have h : q.sourceChar.quote? = some q := SourceChar.quote?_eq_some_iff.mpr rfl
  simp [ofDelimiter, h]

theorem delimiter_sourceChar (q : Quote) : delimiter (some q.sourceChar) = .char q.char := rfl

/-- The space between two statements. -/
def Style.gap : Style → Space
  | .multiLine => .newline
  | .singleLine => .blank

/-- The spaces before a statement. -/
def Style.indentation (ws : List Space) : Style → List Space
  | .multiLine => ws
  | .singleLine => []

mutual

/-- The lexemes an expression is written with. -/
def Expr.lexemes (style : Style) (ws : List Space) : Expr → List Lexeme
  | .absent => []
  | .ident i => [.ident i.name.plain]
  | .number n _ => (Decimal.digits n.toNat).map .digit
  | .bool b _ => [.keyword (if b then .trueKw else .falseKw)]
  | .string value quote _ => [.quoted (Quote.ofDelimiter quote) value.plain]
  | .call called input _ =>
    called.lexemes style ws ++ .bracket ⟨.paren, true⟩ ::
      (input.lexemes style ws ++ [.bracket ⟨.paren, false⟩])
  | .access target none _ => target.lexemes style ws ++ [.punct .fullStop]
  | .access target (some field) _ =>
    target.lexemes style ws ++ [.punct .fullStop, .ident field.name.plain]
  | .block [] _ => [.bracket ⟨.curly, true⟩, .bracket ⟨.curly, false⟩]
  | .block (s :: ss) _ =>
    match style with
    | .singleLine =>
      .bracket ⟨.curly, true⟩ ::
        (Stmt.lexemesAll .singleLine [] (s :: ss) ++ [.bracket ⟨.curly, false⟩])
    | .multiLine =>
      .bracket ⟨.curly, true⟩ :: .space .newline ::
        (Stmt.lexemesAll .multiLine (ws ++ [.tab]) (s :: ss) ++
          .space .newline :: (ws.map .space ++ [.bracket ⟨.curly, false⟩]))

/-- The lexemes a statement is written with. -/
def Stmt.lexemes (style : Style) (ws : List Space) : Stmt → List Lexeme
  | .absent => []
  | .binding none value _ => value.lexemes style ws ++ [.punct .semicolon]
  | .binding (some name) value _ =>
    .keyword .letKw :: .space .blank :: .ident name.name.plain :: .space .blank ::
      .operator .equal :: .space .blank :: (value.lexemes style ws ++ [.punct .semicolon])
  | .stated value _ => value.lexemes style ws ++ [.punct .semicolon]

/-- The lexemes a list of statements is written with. -/
def Stmt.lexemesAll (style : Style) (ws : List Space) : List Stmt → List Lexeme
  | [] => []
  | s :: ss =>
    (style.indentation ws).map .space ++ (s.lexemes style ws ++ Stmt.lexemesMore style ws ss)

/-- The lexemes that the statements after a first one are written with. -/
def Stmt.lexemesMore (style : Style) (ws : List Space) : List Stmt → List Lexeme
  | [] => []
  | s :: ss =>
    .space style.gap :: ((style.indentation ws).map .space ++
      (s.lexemes style ws ++ Stmt.lexemesMore style ws ss))

end

/-! ## Writing the lexemes -/

@[simp] theorem spellAll_nil : spellAll [] = [] := rfl

@[simp] theorem spellAll_cons (x : Lexeme) (xs : List Lexeme) :
    spellAll (x :: xs) = x.spelling ++ spellAll xs := rfl

@[simp] theorem spellAll_append (xs ys : List Lexeme) :
    spellAll (xs ++ ys) = spellAll xs ++ spellAll ys := by
  simp [spellAll]

@[simp] theorem spellAll_spaces (ws : List Space) :
    spellAll (ws.map Lexeme.space) = ws.map Space.char := by
  induction ws with
  | nil => rfl
  | cons w ws ih =>
    rw [List.map_cons, spellAll_cons, ih]
    rfl

@[simp] theorem spellAll_digits (ds : List Digit) :
    spellAll (ds.map Lexeme.digit) = ds.map Digit.toChar := by
  induction ds with
  | nil => rfl
  | cons d ds ih =>
    rw [List.map_cons, spellAll_cons, ih]
    rfl

theorem Style.margin_ofSpaces (style : Style) (ws : List Space) :
    style.margin (Text.ofSpaces ws) = Text.ofSpaces (style.indentation ws) := by
  cases style <;> rfl

theorem Style.separator_eq (style : Style) : style.separator = .char style.gap.char := by
  cases style <;> rfl

theorem spelling_bool (b : Bool) :
    Text.ofChars (Lexeme.keyword (if b then .trueKw else .falseKw)).spelling = boolText b := by
  cases b <;> rfl

theorem Text.ofSpaces_append (ws vs : List Space) :
    Text.ofSpaces (ws ++ vs) = Text.ofSpaces ws ++ Text.ofSpaces vs := by
  simp [Text.ofSpaces]

mutual

/-- A well-formed expression is written with the spellings of its lexemes. -/
theorem Expr.write_lexemes {o : Options} (style : Style) (ws : List Space) :
    ∀ {e : Expr}, e.WellFormed o → ∀ tail : Text,
      e.write style (Text.ofSpaces ws) tail =
        some (Text.ofChars (spellAll (e.lexemes style ws)) ++ tail)
  | .absent, h, _ => absurd h id
  | .ident i, h, tail => by
    obtain ⟨cs, hname, -⟩ := h
    simp [Expr.write, Expr.lexemes, hname, Lexeme.spelling, Lexeme.literal]
  | .number n _, _, tail => by
    simp [Expr.write, Expr.lexemes, Decimal.ofNat]
  | .bool b _, _, tail => by
    simp [Expr.write, Expr.lexemes, spelling_bool]
  | .string value quote _, h, tail => by
    obtain ⟨q, cs, rfl, rfl, -⟩ := h
    rw [Expr.write, Expr.lexemes, Quote.ofDelimiter_sourceChar, delimiter_sourceChar]
    simp [Lexeme.spelling]
  | .call called input _, h, tail => by
    obtain ⟨-, hcalled, hinput⟩ := h
    rw [Expr.write_call, Expr.write_lexemes style ws hinput, Option.bind_some,
      Expr.write_lexemes style ws hcalled]
    simp [Expr.lexemes, Lexeme.spelling, Lexeme.literal, Bracket.char]
  | .access target none _, h, _ => by
    obtain ⟨-, -, -, i, hi, -⟩ := h
    cases hi
  | .access target (some field) _, h, tail => by
    obtain ⟨-, -, htarget, i, hi, cs, hname, -⟩ := h
    cases hi
    rw [Expr.write, Expr.write_lexemes style ws htarget]
    simp [Expr.lexemes, Lexeme.spelling, Lexeme.literal, Punct.char, hname]
  | .block [] _, _, tail => by
    simp [Expr.write, Expr.lexemes, Lexeme.spelling, Lexeme.literal, Bracket.char]
  | .block (s :: ss) _, h, tail => by
    obtain ⟨-, hss⟩ := h
    cases style with
    | singleLine =>
      have hbody := Stmt.writeAll_lexemes .singleLine [] hss (.char '\x7d' :: tail)
      change Stmt.writeAll .singleLine [] (s :: ss) (.char '\x7d' :: tail) = _ at hbody
      rw [Expr.write_block_singleLine, hbody, Option.map_some]
      simp [Expr.lexemes, Lexeme.spelling, Lexeme.literal, Bracket.char]
    | multiLine =>
      have hbody := Stmt.writeAll_lexemes .multiLine (ws ++ [.tab]) hss
        (.char '\n' :: (Text.ofSpaces ws ++ .char '\x7d' :: tail))
      rw [Text.ofSpaces_append] at hbody
      change Stmt.writeAll .multiLine (Text.ofSpaces ws ++ [.char '\t']) (s :: ss) _ = _ at hbody
      rw [Expr.write_block_multiLine, hbody, Option.map_some]
      simp [Expr.lexemes, Lexeme.spelling, Lexeme.literal, Bracket.char, Space.char, Text.ofSpaces]

theorem Stmt.write_lexemes {o : Options} (style : Style) (ws : List Space) :
    ∀ {s : Stmt}, s.WellFormed o → ∀ tail : Text,
      s.write style (Text.ofSpaces ws) tail =
        some (Text.ofChars (spellAll (s.lexemes style ws)) ++ tail)
  | .absent, h, _ => absurd h id
  | .binding none _ _, h, _ => by
    obtain ⟨⟨i, hi, -⟩, -⟩ := h
    cases hi
  | .binding (some name) value _, h, tail => by
    obtain ⟨⟨i, hi, cs, hname, -⟩, hvalue⟩ := h
    cases hi
    rw [Stmt.write_binding, Expr.write_lexemes style ws hvalue, Option.map_some]
    simp [Stmt.lexemes, Lexeme.spelling, Lexeme.literal, Keyword.spelling, Space.char,
      Operator.char, Punct.char, Text.ofString, hname]
  | .stated value _, h, tail => by
    rw [Stmt.write, Expr.write_lexemes style ws h]
    simp [Stmt.lexemes, Lexeme.spelling, Lexeme.literal, Punct.char]

theorem Stmt.writeAll_lexemes {o : Options} (style : Style) (ws : List Space) :
    ∀ {ss : List Stmt}, Stmt.AllWellFormed o ss → ∀ tail : Text,
      Stmt.writeAll style (Text.ofSpaces ws) ss tail =
        some (Text.ofChars (spellAll (Stmt.lexemesAll style ws ss)) ++ tail)
  | [], _, _ => rfl
  | s :: ss, h, tail => by
    obtain ⟨hs, hss⟩ := h
    rw [Stmt.writeAll_cons, Stmt.writeMore_lexemes style ws hss, Option.bind_some,
      Stmt.write_lexemes style ws hs, Option.map_some, Style.margin_ofSpaces]
    simp [Stmt.lexemesAll, Text.ofSpaces]

theorem Stmt.writeMore_lexemes {o : Options} (style : Style) (ws : List Space) :
    ∀ {ss : List Stmt}, Stmt.AllWellFormed o ss → ∀ tail : Text,
      Stmt.writeMore style (Text.ofSpaces ws) ss tail =
        some (Text.ofChars (spellAll (Stmt.lexemesMore style ws ss)) ++ tail)
  | [], _, _ => rfl
  | s :: ss, h, tail => by
    obtain ⟨hs, hss⟩ := h
    rw [Stmt.writeMore_cons, Stmt.writeMore_lexemes style ws hss, Option.bind_some,
      Stmt.write_lexemes style ws hs, Option.map_some, Style.margin_ofSpaces, Style.separator_eq]
    simp [Stmt.lexemesMore, Text.ofSpaces, Lexeme.spelling, Lexeme.literal]

end

/-! ## Reading the lexemes back -/

/-- The list begins with a lexeme that ends a word before it, or it is empty. -/
def Apart (xs : List Lexeme) : Prop :=
  ∀ y, xs.head? = some y → y.standsAlone = true

theorem apart_cons {x : Lexeme} (h : x.standsAlone = true) (xs : List Lexeme) : Apart (x :: xs) := by
  intro y hy
  cases hy
  exact h

namespace Readable

theorem alone {x : Lexeme} {xs : List Lexeme} (hx : x.standsAlone = true) (hxs : Readable xs) :
    Readable (x :: xs) := by
  refine ⟨Lexeme.spellable_of_standsAlone hx, fun hword => ?_, hxs⟩
  cases x with
  | keyword | ident => cases hx
  | _ => cases hword

theorem allAlone {xs ys : List Lexeme} (hxs : ∀ x ∈ xs, x.standsAlone = true) (hys : Readable ys) :
    Readable (xs ++ ys) := by
  induction xs with
  | nil => exact hys
  | cons x xs ih =>
    exact alone (hxs x List.mem_cons_self) (ih fun y hy => hxs y (List.mem_cons_of_mem x hy))

theorem spaces (ws : List Space) {xs : List Lexeme} (hxs : Readable xs) :
    Readable (ws.map .space ++ xs) := by
  refine allAlone (fun x hx => ?_) hxs
  obtain ⟨w, -, rfl⟩ := List.mem_map.mp hx
  rfl

theorem digits (ds : List Digit) {xs : List Lexeme} (hxs : Readable xs) :
    Readable (ds.map .digit ++ xs) := by
  refine allAlone (fun x hx => ?_) hxs
  obtain ⟨d, -, rfl⟩ := List.mem_map.mp hx
  rfl

theorem name {i : Ident} (h : i.WellFormed) {xs : List Lexeme} (apart : Apart xs)
    (hxs : Readable xs) : Readable (.ident i.name.plain :: xs) := by
  obtain ⟨cs, hname, hcs⟩ := h
  rw [hname, Text.plain_ofChars]
  exact ⟨hcs, fun _ => apart, hxs⟩

end Readable

mutual

/-- The lexemes of an expression can be read back before any that stands apart from it. -/
theorem Expr.readable_lexemes {o : Options} (style : Style) (ws : List Space) :
    ∀ {e : Expr}, e.WellFormed o → ∀ {us : List Lexeme}, Apart us → Readable us →
      Readable (e.lexemes style ws ++ us)
  | .absent, h, _, _, _ => absurd h id
  | .ident i, h, _, apart, hus => .name h apart hus
  | .number n _, _, _, _, hus => .digits _ hus
  | .bool b _, _, _, apart, hus => ⟨trivial, fun _ => apart, hus⟩
  | .string value quote _, h, us, _, hus => by
    obtain ⟨q, cs, rfl, rfl, hcs⟩ := h
    rw [Expr.lexemes, Quote.ofDelimiter_sourceChar, Text.plain_ofChars]
    have hnoWord : (Lexeme.quoted q cs).isWord ≠ true := Bool.false_ne_true
    exact ⟨hcs, fun hword => absurd hword hnoWord, hus⟩
  | .call called input _, h, us, apart, hus => by
    obtain ⟨-, hcalled, hinput⟩ := h
    rw [Expr.lexemes, List.append_assoc, List.cons_append, List.append_assoc]
    have hclose : Readable (.bracket ⟨.paren, false⟩ :: us) := .alone rfl hus
    have hargument := Expr.readable_lexemes style ws hinput (apart_cons rfl us) hclose
    exact Expr.readable_lexemes style ws hcalled (apart_cons rfl _) (.alone rfl hargument)
  | .access target none _, h, _, _, _ => by
    obtain ⟨-, -, -, i, hi, -⟩ := h
    cases hi
  | .access target (some field) _, h, us, apart, hus => by
    obtain ⟨-, -, htarget, i, hi, hfield⟩ := h
    cases hi
    rw [Expr.lexemes, List.append_assoc]
    have hname : Readable (.ident field.name.plain :: us) := .name hfield apart hus
    exact Expr.readable_lexemes style ws htarget (apart_cons rfl _) (.alone rfl hname)
  | .block [] _, _, us, _, hus => .alone rfl (.alone rfl hus)
  | .block (s :: ss) _, h, us, _, hus => by
    obtain ⟨-, hss⟩ := h
    have hclose : Readable (.bracket ⟨.curly, false⟩ :: us) := .alone rfl hus
    cases style with
    | singleLine =>
      rw [Expr.lexemes, List.cons_append, List.append_assoc]
      exact .alone rfl (Stmt.readable_lexemesAll .singleLine [] hss hclose)
    | multiLine =>
      rw [Expr.lexemes]
      simp only [List.cons_append, List.append_assoc, List.nil_append]
      have hmargin : Readable (.space .newline :: (ws.map .space ++ .bracket ⟨.curly, false⟩ :: us)) :=
        .alone rfl (.spaces ws hclose)
      exact .alone rfl (.alone rfl (Stmt.readable_lexemesAll .multiLine (ws ++ [.tab]) hss hmargin))

theorem Stmt.readable_lexemes {o : Options} (style : Style) (ws : List Space) :
    ∀ {s : Stmt}, s.WellFormed o → ∀ {us : List Lexeme}, Readable us →
      Readable (s.lexemes style ws ++ us)
  | .absent, h, _, _ => absurd h id
  | .binding none _ _, h, _, _ => by
    obtain ⟨⟨i, hi, -⟩, -⟩ := h
    cases hi
  | .binding (some name) value _, h, us, hus => by
    obtain ⟨⟨i, hi, hname⟩, hvalue⟩ := h
    cases hi
    have hend : Readable (.punct .semicolon :: us) := .alone rfl hus
    have hbound := Expr.readable_lexemes style ws hvalue (apart_cons rfl us) hend
    rw [Stmt.lexemes]
    simp only [List.cons_append, List.append_assoc, List.nil_append]
    refine ⟨trivial, fun _ => apart_cons rfl _, .alone rfl (.name hname (apart_cons rfl _) ?_)⟩
    exact .alone rfl (.alone rfl (.alone rfl hbound))
  | .stated value _, h, us, hus => by
    rw [Stmt.lexemes, List.append_assoc]
    exact Expr.readable_lexemes style ws h (apart_cons rfl us) (.alone rfl hus)

theorem Stmt.readable_lexemesAll {o : Options} (style : Style) (ws : List Space) :
    ∀ {ss : List Stmt}, Stmt.AllWellFormed o ss → ∀ {us : List Lexeme}, Readable us →
      Readable (Stmt.lexemesAll style ws ss ++ us)
  | [], _, _, hus => hus
  | s :: ss, h, us, hus => by
    obtain ⟨hs, hss⟩ := h
    rw [Stmt.lexemesAll, List.append_assoc, List.append_assoc]
    have hmore := Stmt.readable_lexemesMore style ws hss hus
    exact .spaces _ (Stmt.readable_lexemes style ws hs hmore)

theorem Stmt.readable_lexemesMore {o : Options} (style : Style) (ws : List Space) :
    ∀ {ss : List Stmt}, Stmt.AllWellFormed o ss → ∀ {us : List Lexeme}, Readable us →
      Readable (Stmt.lexemesMore style ws ss ++ us)
  | [], _, _, hus => hus
  | s :: ss, h, us, hus => by
    obtain ⟨hs, hss⟩ := h
    rw [Stmt.lexemesMore, List.cons_append, List.append_assoc, List.append_assoc]
    have hmore := Stmt.readable_lexemesMore style ws hss hus
    exact .alone rfl (.spaces _ (Stmt.readable_lexemes style ws hs hmore))

end

end LetLang
