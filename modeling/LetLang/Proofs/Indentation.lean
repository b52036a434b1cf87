import LetLang.Tree.Layout

/-!
# Indentation

A tree is written on several lines behind an indentation as it is written without one, with the
indentation put behind every newline. Blocks indent further, so the law is proved with more indentation
inside the given one. A newline inside a name or a string would be indented too, so there must be none;
the given indentation can hold any characters. On a single line no indentation is written.
-/
namespace LetLang

/-! ## Whole trees -/

mutual

/-- No part of the expression is missing. -/
def Expr.Whole : Expr → Prop
  | .absent => False
  | .ident _ | .number _ _ | .bool _ _ | .string _ _ _ => True
  | .call called input _ => called.Whole ∧ input.Whole
  | .access _ none _ => False
  | .access target (some _) _ => target.Whole
  | .block ss _ => Stmt.AllWhole ss

/-- No part of the statement is missing. -/
def Stmt.Whole : Stmt → Prop
  | .absent => False
  | .binding none _ _ => False
  | .binding (some _) value _ | .stated value _ => value.Whole

/-- No part of the statements is missing. -/
def Stmt.AllWhole : List Stmt → Prop
  | [] => True
  | s :: ss => s.Whole ∧ Stmt.AllWhole ss

end

theorem isSome_bind_iff {α β : Type} {a : Option α} {f : α → Option β} {p q : Prop}
    (ha : a.isSome ↔ p) (hf : ∀ x, (f x).isSome ↔ q) : (a.bind f).isSome ↔ q ∧ p := by
  rw [← ha]
  cases a with
  | none => simp
  | some x => simp [hf x]

mutual

/-- An expression has a text exactly if no part of it is missing. -/
theorem Expr.isSome_write_iff (style : Style) (indent : Text) :
    ∀ (e : Expr) (tail : Text), (e.write style indent tail).isSome ↔ e.Whole
  | .absent, _ | .access _ none _, _ => iff_of_false Bool.false_ne_true id
  | .ident _, _ | .number _ _, _ | .bool _ _, _ | .string _ _ _, _ | .block [] _, _ =>
    iff_of_true rfl trivial
  | .call called input _, tail => by
    rw [Expr.write_call]
    exact isSome_bind_iff (Expr.isSome_write_iff style indent input _)
      fun t => Expr.isSome_write_iff style indent called _
  | .access target (some _) _, _ => Expr.isSome_write_iff style indent target _
  | .block (s :: ss) _, tail => by
    cases style with
    | singleLine =>
      rw [Expr.write_block_singleLine, Option.isSome_map]
      exact Stmt.isSome_writeAll_iff .singleLine [] (s :: ss) _
    | multiLine =>
      rw [Expr.write_block_multiLine, Option.isSome_map]
      exact Stmt.isSome_writeAll_iff .multiLine _ (s :: ss) _

theorem Stmt.isSome_write_iff (style : Style) (indent : Text) :
    ∀ (s : Stmt) (tail : Text), (s.write style indent tail).isSome ↔ s.Whole
  | .absent, _ | .binding none _ _, _ => iff_of_false Bool.false_ne_true id
  | .binding (some _) value _, tail => by
    rw [Stmt.write_binding, Option.isSome_map]
    exact Expr.isSome_write_iff style indent value _
  | .stated value _, _ => Expr.isSome_write_iff style indent value _

theorem Stmt.isSome_writeAll_iff (style : Style) (indent : Text) :
    ∀ (ss : List Stmt) (tail : Text),
      (Stmt.writeAll style indent ss tail).isSome ↔ Stmt.AllWhole ss
  | [], _ => iff_of_true rfl trivial
  | s :: ss, tail => by
    rw [Stmt.writeAll_cons]
    refine isSome_bind_iff (Stmt.isSome_writeMore_iff style indent ss tail) fun t => ?_
    rw [Option.isSome_map]
    exact Stmt.isSome_write_iff style indent s t

theorem Stmt.isSome_writeMore_iff (style : Style) (indent : Text) :
    ∀ (ss : List Stmt) (tail : Text),
      (Stmt.writeMore style indent ss tail).isSome ↔ Stmt.AllWhole ss
  | [], _ => iff_of_true rfl trivial
  | s :: ss, tail => by
    rw [Stmt.writeMore_cons]
    refine isSome_bind_iff (Stmt.isSome_writeMore_iff style indent ss tail) fun t => ?_
    rw [Option.isSome_map]
    exact Stmt.isSome_write_iff style indent s t

end

/-! ## Putting an indentation behind every newline -/

/-- The text with the indentation behind every newline. -/
def Text.reindent (indent t : Text) : Text :=
  t.flatMap fun g => if g = .char '\n' then g :: indent else [g]

/-- The text has no newline. -/
def Text.NewlineFree (t : Text) : Prop :=
  Glyph.char '\n' ∉ t

namespace Text

theorem reindent_newline_cons (indent t : Text) :
    reindent indent (.char '\n' :: t) = .char '\n' :: (indent ++ reindent indent t) := rfl

theorem reindent_cons (indent : Text) {g : Glyph} (h : g ≠ .char '\n') (t : Text) :
    reindent indent (g :: t) = g :: reindent indent t := by
  rw [reindent, List.flatMap_cons, if_neg h]
  rfl

theorem reindent_append (indent : Text) {t : Text} (h : t.NewlineFree) (u : Text) :
    reindent indent (t ++ u) = t ++ reindent indent u := by
  induction t with
  | nil => rfl
  | cons g t ih =>
    obtain ⟨hg, ht⟩ := not_or.mp (mt List.mem_cons.mpr h)
    rw [List.cons_append, reindent_cons indent (Ne.symm hg), ih ht, List.cons_append]

theorem newlineFree_ofChars {cs : List Char} (h : '\n' ∉ cs) : (ofChars cs).NewlineFree := by
  intro hmem
  obtain ⟨c, hc, he⟩ := List.mem_map.mp hmem
  cases he
  exact h hc

theorem newlineFree_numeral (n : Nat) : (ofChars (Decimal.ofNat n)).NewlineFree := by
  refine newlineFree_ofChars fun hmem => ?_
  obtain ⟨d, -, hd⟩ := List.mem_map.mp hmem
  have hne : ∀ d : Digit, d.toChar ≠ '\n' := by decide
  exact hne d hd

end Text

mutual

/-- No name, string or delimiter in the expression holds a newline. -/
def Expr.NewlineFree : Expr → Prop
  | .absent | .number _ _ | .bool _ _ => True
  | .ident i => i.name.NewlineFree
  | .string value quote _ => value.NewlineFree ∧ quote ≠ some (.char '\n')
  | .call called input _ => called.NewlineFree ∧ input.NewlineFree
  | .access target field _ => target.NewlineFree ∧ ∀ i ∈ field, i.name.NewlineFree
  | .block ss _ => Stmt.AllNewlineFree ss

/-- No name, string or delimiter in the statement holds a newline. -/
def Stmt.NewlineFree : Stmt → Prop
  | .absent => True
  | .binding name value _ => (∀ i ∈ name, i.name.NewlineFree) ∧ value.NewlineFree
  | .stated value _ => value.NewlineFree

/-- No name, string or delimiter in the statements holds a newline. -/
def Stmt.AllNewlineFree : List Stmt → Prop
  | [] => True
  | s :: ss => s.NewlineFree ∧ Stmt.AllNewlineFree ss

end

theorem delimiter_ne_newline {quote : Option SourceChar} (h : quote ≠ some (.char '\n')) :
    delimiter quote ≠ .char '\n' := by
  cases quote with
  | none => decide
  | some r =>
    cases r with
    | char c =>
      intro hc
      cases hc
      exact h rfl
    | invalid code _ =>
      change Glyph.char '\uFFFD' ≠ .char '\n'
      decide

/-! ## Several lines -/

section Behind

open Text

variable (indent : Text)

mutual

/-- Behind an indentation an expression is written with it behind every newline. Inside of it stands the
indentation of the blocks around the expression. -/
theorem Expr.write_behind :
    ∀ {e : Expr}, e.NewlineFree → ∀ {inner : Text}, inner.NewlineFree → ∀ tail : Text,
      e.write .multiLine (indent ++ inner) (reindent indent tail) =
        (e.write .multiLine inner tail).map (reindent indent)
  | .absent, _, _, _, _ => rfl
  | .ident i, h, _, _, tail => congrArg some (reindent_append indent h tail).symm
  | .number n _, _, _, _, tail =>
    congrArg some (reindent_append indent (newlineFree_numeral n.toNat) tail).symm
  | .bool b _, _, _, _, tail => by
    have hfree : (boolText b).NewlineFree := by cases b <;> exact newlineFree_ofChars (by decide)
    exact congrArg some (reindent_append indent hfree tail).symm
  | .string value quote _, h, _, _, tail => by
    obtain ⟨hvalue, hquote⟩ := h
    have hdelimiter := delimiter_ne_newline hquote
    rw [Expr.write, Expr.write, Option.map_some, reindent_cons indent hdelimiter,
      reindent_append indent hvalue, reindent_cons indent hdelimiter]
  | .call called input _, h, inner, hinner, tail => by
    obtain ⟨hcalled, hinput⟩ := h
    have hargument := Expr.write_behind hinput hinner (.char ')' :: tail)
    rw [reindent_cons indent (by decide)] at hargument
    rw [Expr.write_call, Expr.write_call, hargument, Option.bind_map, Option.map_bind]
    congr 1
    funext t
    have hcallee := Expr.write_behind hcalled hinner (.char '(' :: t)
    rw [reindent_cons indent (by decide)] at hcallee
    exact hcallee
  | .access target none _, _, _, _, _ => rfl
  | .access target (some field) _, h, inner, hinner, tail => by
    obtain ⟨htarget, hfield⟩ := h
    have hobject := Expr.write_behind htarget hinner (.char '.' :: (field.name ++ tail))
    rw [reindent_cons indent (by decide), reindent_append indent (hfield field rfl)] at hobject
    exact hobject
  | .block [] _, _, _, _, tail => rfl
  | .block (s :: ss) _, h, inner, hinner, tail => by
    -- inside the block the statements are one tab deeper, still behind the same indentation
    have hdeeper : NewlineFree (inner ++ [.char '\t']) := by
      simpa [NewlineFree] using hinner
    have hbody := Stmt.writeAll_behind (List.cons_ne_nil s ss) h hdeeper
      (.char '\n' :: (inner ++ .char '\x7d' :: tail))
    rw [reindent_newline_cons, reindent_append indent hinner, reindent_cons indent (by decide),
      ← List.append_assoc, ← List.append_assoc] at hbody
    rw [Expr.write_block_multiLine, Expr.write_block_multiLine, hbody, Option.map_map,
      Option.map_map]
    rfl

theorem Stmt.write_behind :
    ∀ {s : Stmt}, s.NewlineFree → ∀ {inner : Text}, inner.NewlineFree → ∀ tail : Text,
      s.write .multiLine (indent ++ inner) (reindent indent tail) =
        (s.write .multiLine inner tail).map (reindent indent)
  | .absent, _, _, _, _ => rfl
  | .binding none _ _, _, _, _, _ => rfl
  | .binding (some name) value _, h, inner, hinner, tail => by
    obtain ⟨hname, hvalue⟩ := h
    have hlet : NewlineFree (ofString "let ") := newlineFree_ofChars (by decide)
    have hequal : NewlineFree (ofString " = ") := newlineFree_ofChars (by decide)
    have hbound := Expr.write_behind hvalue hinner (.char ';' :: tail)
    rw [reindent_cons indent (by decide)] at hbound
    rw [Stmt.write_binding, Stmt.write_binding, hbound, Option.map_map, Option.map_map]
    congr 1
    funext t
    simp only [Function.comp_apply]
    rw [reindent_append indent hlet, reindent_append indent (hname name rfl),
      reindent_append indent hequal]
  | .stated value _, h, inner, hinner, tail => by
    have hsaid := Expr.write_behind (e := value) h hinner (.char ';' :: tail)
    rw [reindent_cons indent (by decide)] at hsaid
    exact hsaid

/-- Before the first statement there is no newline, so the indentation is put there apart. -/
theorem Stmt.writeAll_behind :
    ∀ {ss : List Stmt}, ss ≠ [] → Stmt.AllNewlineFree ss →
      ∀ {inner : Text}, inner.NewlineFree → ∀ tail : Text,
      Stmt.writeAll .multiLine (indent ++ inner) ss (reindent indent tail) =
        (Stmt.writeAll .multiLine inner ss tail).map (indent ++ reindent indent ·)
  | [], hne, _, _, _, _ => absurd rfl hne
  | s :: ss, _, h, inner, hinner, tail => by
    obtain ⟨hs, hss⟩ := h
    rw [Stmt.writeAll_cons, Stmt.writeAll_cons, Stmt.writeMore_behind hss hinner tail,
      Option.bind_map, Option.map_bind]
    congr 1
    funext t
    simp only [Function.comp_apply]
    rw [Stmt.write_behind hs hinner t, Option.map_map, Option.map_map]
    congr 1
    funext u
    simp only [Function.comp_apply, Style.margin]
    rw [reindent_append indent hinner, List.append_assoc]

theorem Stmt.writeMore_behind :
    ∀ {ss : List Stmt}, Stmt.AllNewlineFree ss →
      ∀ {inner : Text}, inner.NewlineFree → ∀ tail : Text,
      Stmt.writeMore .multiLine (indent ++ inner) ss (reindent indent tail) =
        (Stmt.writeMore .multiLine inner ss tail).map (reindent indent)
  | [], _, _, _, _ => rfl
  | s :: ss, h, inner, hinner, tail => by
    obtain ⟨hs, hss⟩ := h
    rw [Stmt.writeMore_cons, Stmt.writeMore_cons, Stmt.writeMore_behind hss hinner tail,
      Option.bind_map, Option.map_bind]
    congr 1
    funext t
    simp only [Function.comp_apply]
    rw [Stmt.write_behind hs hinner t, Option.map_map, Option.map_map]
    congr 1
    funext u
    simp only [Function.comp_apply, Style.margin, Style.separator]
    rw [reindent_newline_cons, reindent_append indent hinner, List.append_assoc]

end

end Behind

/-! ## A single line -/

section SingleLine

variable (indent other : Text)

mutual

/-- On a single line the indentation is not used. -/
theorem Expr.write_singleLine :
    ∀ (e : Expr) (tail : Text), e.write .singleLine indent tail = e.write .singleLine other tail
  | .absent, _ | .ident _, _ | .number _ _, _ | .bool _ _, _ | .string _ _ _, _ => rfl
  | .call called input _, tail => by
    rw [Expr.write_call, Expr.write_call, Expr.write_singleLine input]
    congr 1
    funext t
    exact Expr.write_singleLine called _
  | .access _ none _, _ => rfl
  | .access target (some _) _, _ => Expr.write_singleLine target _
  | .block [] _, _ => rfl
  | .block (s :: ss) _, tail => by
    rw [Expr.write_block_singleLine, Expr.write_block_singleLine]

theorem Stmt.write_singleLine :
    ∀ (s : Stmt) (tail : Text), s.write .singleLine indent tail = s.write .singleLine other tail
  | .absent, _ | .binding none _ _, _ => rfl
  | .binding (some _) value _, tail => by
    rw [Stmt.write_binding, Stmt.write_binding, Expr.write_singleLine value]
  | .stated value _, _ => Expr.write_singleLine value _

theorem Stmt.writeMore_singleLine :
    ∀ (ss : List Stmt) (tail : Text),
      Stmt.writeMore .singleLine indent ss tail = Stmt.writeMore .singleLine other ss tail
  | [], _ => rfl
  | s :: ss, tail => by
    rw [Stmt.writeMore_cons, Stmt.writeMore_cons, Stmt.writeMore_singleLine ss]
    congr 1
    funext t
    rw [Stmt.write_singleLine s]
    rfl

end

theorem Stmt.writeAll_singleLine (ss : List Stmt) (tail : Text) :
    Stmt.writeAll .singleLine indent ss tail = Stmt.writeAll .singleLine other ss tail := by
  cases ss with
  | nil => rfl
  | cons s ss =>
    rw [Stmt.writeAll_cons, Stmt.writeAll_cons, Stmt.writeMore_singleLine indent other ss]
    congr 1
    funext t
    rw [Stmt.write_singleLine indent other s]
    rfl

theorem Node.text?_singleLine (n : Node) :
    n.text? .singleLine indent = n.text? .singleLine other := by
  cases n with
  | program p => exact Stmt.writeAll_singleLine indent other p.stmts []
  | stmt s => exact Stmt.write_singleLine indent other s []
  | expr e => exact Expr.write_singleLine indent other e []
  | missingName | foreign => rfl

end SingleLine

/-! ## The law -/

theorem exists_of_isSome_of_eq_map {α β : Type} {a : Option α} {b : Option β} {f : α → β}
    (ha : a.isSome) (hb : b = a.map f) : ∃ x, a = some x ∧ b = some (f x) := by
  obtain ⟨x, rfl⟩ := Option.isSome_iff_exists.mp ha
  exact ⟨x, rfl, hb⟩

/-- A whole tree without newlines inside its names and strings is written on several lines behind any
indentation with the indentation put behind every newline, and a program with statements also begins with
it. On a single line the indentation makes no difference. -/
theorem text_behind_indentation (indent : Text) :
    (∀ e : Expr, e.Whole → e.NewlineFree →
      ∃ t, (Node.expr e).text? .multiLine [] = some t ∧
        (Node.expr e).text? .multiLine indent = some (Text.reindent indent t)) ∧
    (∀ s : Stmt, s.Whole → s.NewlineFree →
      ∃ t, (Node.stmt s).text? .multiLine [] = some t ∧
        (Node.stmt s).text? .multiLine indent = some (Text.reindent indent t)) ∧
    (∀ p : Program, p.stmts ≠ [] → Stmt.AllWhole p.stmts → Stmt.AllNewlineFree p.stmts →
      ∃ t, (Node.program p).text? .multiLine [] = some t ∧
        (Node.program p).text? .multiLine indent = some (indent ++ Text.reindent indent t)) ∧
    ∀ (n : Node) (other : Text), n.text? .singleLine indent = n.text? .singleLine other := by
  have hempty : Text.NewlineFree [] := List.not_mem_nil
  refine ⟨?_, ?_, ?_, fun n other => Node.text?_singleLine indent other n⟩
  · intro e whole free
    have hbehind := Expr.write_behind indent free hempty []
    rw [List.append_nil] at hbehind
    exact exists_of_isSome_of_eq_map ((Expr.isSome_write_iff .multiLine [] e []).mpr whole) hbehind
  · intro s whole free
    have hbehind := Stmt.write_behind indent free hempty []
    rw [List.append_nil] at hbehind
    exact exists_of_isSome_of_eq_map ((Stmt.isSome_write_iff .multiLine [] s []).mpr whole) hbehind
  · intro p hne whole free
    have hbehind := Stmt.writeAll_behind indent hne free hempty []
    rw [List.append_nil] at hbehind
    exact exists_of_isSome_of_eq_map
      ((Stmt.isSome_writeAll_iff .multiLine [] p.stmts []).mpr whole) hbehind

/-- A block with a call of another block: alone, as the value of a binding, and in a program. -/
theorem text_behind_indentation_call_of_block :
    let e := Expr.block [.stated (.call (.access (.ident ⟨[.char 'x'], ⟨2, 2⟩⟩)
      (some ⟨[.char 'f'], ⟨4, 4⟩⟩) ⟨2, 4⟩) (.block [.stated (.string (Text.ofString "a b") none ⟨7, 11⟩)
      ⟨7, 11⟩] ⟨6, 12⟩) ⟨2, 13⟩) ⟨2, 13⟩] ⟨0, 14⟩
    let s := Stmt.binding (some ⟨[.char 'y'], ⟨0, 0⟩⟩) e ⟨0, 14⟩
    let indent := Text.ofString "--"
    e.Whole ∧ e.NewlineFree ∧ s.Whole ∧ s.NewlineFree ∧
      (Node.expr e).text? .multiLine indent =
        some (Text.ofString "\x7b\n--\tx.f(\x7b\n--\t\t\x22a b\x22;\n--\t\x7d);\n--\x7d") ∧
      (Node.stmt s).text? .multiLine indent = some (Text.ofString
        "let y = \x7b\n--\tx.f(\x7b\n--\t\t\x22a b\x22;\n--\t\x7d);\n--\x7d;") ∧
      (Node.program ⟨[s]⟩).text? .multiLine indent = some (Text.ofString
        "--let y = \x7b\n--\tx.f(\x7b\n--\t\t\x22a b\x22;\n--\t\x7d);\n--\x7d;") := by
  intro e s indent
  have whole : e.Whole := ⟨⟨trivial, trivial, trivial⟩, trivial⟩
  have char (c : Char) (h : '\n' ∉ [c]) : Text.NewlineFree [.char c] := Text.newlineFree_ofChars h
  have free : e.NewlineFree := by
    have target : Expr.NewlineFree (.access (.ident ⟨[.char 'x'], ⟨2, 2⟩⟩)
        (some ⟨[.char 'f'], ⟨4, 4⟩⟩) ⟨2, 4⟩) := by
      refine ⟨char 'x' (by decide), ?_⟩
      rintro _ ⟨⟩
      exact char 'f' (by decide)
    have value : (Text.ofString "a b").NewlineFree := Text.newlineFree_ofChars (by decide)
    exact ⟨⟨target, ⟨value, nofun⟩, trivial⟩, trivial⟩
  have free' : s.NewlineFree := by
    refine ⟨?_, free⟩
    rintro _ ⟨⟩
    exact char 'y' (by decide)
  obtain ⟨hexpr, hstmt, hprogram, -⟩ := text_behind_indentation indent
  refine ⟨whole, free, whole, free', ?_, ?_, ?_⟩
  · obtain ⟨t, ht, hbehind⟩ := hexpr e whole free
    rw [hbehind]
    cases ht
    decide +kernel
  · obtain ⟨t, ht, hbehind⟩ := hstmt s whole free'
    rw [hbehind]
    cases ht
    decide +kernel
  · obtain ⟨t, ht, hbehind⟩ := hprogram ⟨[s]⟩ nofun ⟨whole, trivial⟩ ⟨free', trivial⟩
    rw [hbehind]
    cases ht
    decide +kernel

end LetLang
