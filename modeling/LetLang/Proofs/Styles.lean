import LetLang.Proofs.RoundTrip

/-!
# Styles differ in spaces only

A tree is written with the same lexemes in every style and behind every indentation, except for the
spaces between them, and on a single line all of these are blanks. What was parsed is written as lexemes
that can be read back, so its texts in both styles are read to the end as these lexemes.
-/
namespace LetLang

open Parse (Options)

/-- The lexemes that are no spaces. -/
def solid (xs : List Lexeme) : List Lexeme :=
  xs.filter fun x => !x.isSpace

@[simp] theorem solid_append (xs ys : List Lexeme) : solid (xs ++ ys) = solid xs ++ solid ys :=
  List.filter_append xs ys

@[simp] theorem solid_space_cons (w : Space) (xs : List Lexeme) :
    solid (.space w :: xs) = solid xs := rfl

@[simp] theorem solid_spaces (ws : List Space) : solid (ws.map Lexeme.space) = [] := by
  induction ws with
  | nil => rfl
  | cons w ws ih => exact ih

theorem solid_cons {x : Lexeme} (h : x.isSpace = false) (xs : List Lexeme) :
    solid (x :: xs) = x :: solid xs :=
  List.filter_cons_of_pos (by rw [h]; rfl)

mutual

/-- The lexemes of an expression but for spaces are those of its text on a single line. -/
theorem Expr.solid_lexemes (style : Style) (ws : List Space) :
    ∀ e : Expr, solid (e.lexemes style ws) = solid (e.lexemes .singleLine [])
  | .absent | .ident _ | .number _ _ | .bool _ _ | .string _ _ _ | .block [] _ => rfl
  | .call called input _ => by
    rw [Expr.lexemes, Expr.lexemes, solid_append, solid_append, solid_cons rfl, solid_cons rfl,
      solid_append, solid_append, Expr.solid_lexemes style ws called,
      Expr.solid_lexemes style ws input]
  | .access target none _ => by
    rw [Expr.lexemes, Expr.lexemes, solid_append, solid_append, Expr.solid_lexemes style ws target]
  | .access target (some field) _ => by
    rw [Expr.lexemes, Expr.lexemes, solid_append, solid_append, Expr.solid_lexemes style ws target]
  | .block (s :: ss) _ => by
    cases style with
    | singleLine => rfl
    | multiLine =>
      have hbody := Stmt.solid_lexemesAll .multiLine (ws ++ [.tab]) (s :: ss)
      rw [Expr.lexemes, Expr.lexemes, solid_cons rfl, solid_space_cons, solid_cons rfl, solid_append,
        solid_append, hbody, solid_space_cons, solid_append, solid_spaces, List.nil_append]

theorem Stmt.solid_lexemes (style : Style) (ws : List Space) :
    ∀ s : Stmt, solid (s.lexemes style ws) = solid (s.lexemes .singleLine [])
  | .absent => rfl
  | .binding none value _ => by
    rw [Stmt.lexemes, Stmt.lexemes, solid_append, solid_append, Expr.solid_lexemes style ws value]
  | .binding (some name) value _ => by
    have hvalue : solid (value.lexemes style ws ++ [.punct .semicolon]) =
        solid (value.lexemes .singleLine [] ++ [.punct .semicolon]) := by
      rw [solid_append, solid_append, Expr.solid_lexemes style ws value]
    exact congrArg (fun xs => .keyword .letKw :: .ident name.name.plain :: .operator .equal :: xs)
      hvalue
  | .stated value _ => by
    rw [Stmt.lexemes, Stmt.lexemes, solid_append, solid_append, Expr.solid_lexemes style ws value]

theorem Stmt.solid_lexemesAll (style : Style) (ws : List Space) :
    ∀ ss : List Stmt,
      solid (Stmt.lexemesAll style ws ss) = solid (Stmt.lexemesAll .singleLine [] ss)
  | [] => rfl
  | s :: ss => by
    rw [Stmt.lexemesAll, Stmt.lexemesAll, solid_append, solid_append, solid_append, solid_append,
      solid_spaces, solid_spaces, Stmt.solid_lexemes style ws s, Stmt.solid_lexemesMore style ws ss]

theorem Stmt.solid_lexemesMore (style : Style) (ws : List Space) :
    ∀ ss : List Stmt,
      solid (Stmt.lexemesMore style ws ss) = solid (Stmt.lexemesMore .singleLine [] ss)
  | [] => rfl
  | s :: ss => by
    rw [Stmt.lexemesMore, Stmt.lexemesMore, solid_space_cons, solid_space_cons, solid_append,
      solid_append, solid_append, solid_append, solid_spaces, solid_spaces,
      Stmt.solid_lexemes style ws s, Stmt.solid_lexemesMore style ws ss]

end

/-! ## The spaces of a single line -/

/-- There are no spaces but blanks. -/
def OnlyBlanks (xs : List Lexeme) : Prop :=
  ∀ w, .space w ∈ xs → w = .blank

theorem OnlyBlanks.append {xs ys : List Lexeme} (hxs : OnlyBlanks xs) (hys : OnlyBlanks ys) :
    OnlyBlanks (xs ++ ys) := by
  intro w hw
  rcases List.mem_append.mp hw with hw | hw
  · exact hxs w hw
  · exact hys w hw

theorem onlyBlanks_nil : OnlyBlanks [] :=
  fun _ hw => absurd hw List.not_mem_nil

theorem OnlyBlanks.cons {x : Lexeme} {xs : List Lexeme} (hx : ∀ w, x = .space w → w = .blank)
    (hxs : OnlyBlanks xs) : OnlyBlanks (x :: xs) := by
  intro w hw
  rcases List.mem_cons.mp hw with hw | hw
  · exact hx w hw.symm
  · exact hxs w hw

theorem OnlyBlanks.blank {xs : List Lexeme} (hxs : OnlyBlanks xs) :
    OnlyBlanks (.space .blank :: xs) :=
  .cons (by rintro w ⟨⟩; rfl) hxs

theorem onlyBlanks_digits (ds : List Digit) : OnlyBlanks (ds.map .digit) := by
  intro w hw
  obtain ⟨d, -, hd⟩ := List.mem_map.mp hw
  cases hd

mutual

/-- An expression on a single line has no spaces but blanks. -/
theorem Expr.onlyBlanks_lexemes (ws : List Space) :
    ∀ e : Expr, OnlyBlanks (e.lexemes .singleLine ws)
  | .absent => onlyBlanks_nil
  | .ident _ | .bool _ _ | .string _ _ _ => .cons nofun onlyBlanks_nil
  | .number _ _ => onlyBlanks_digits _
  | .call called input _ =>
    (Expr.onlyBlanks_lexemes ws called).append
      (.cons nofun ((Expr.onlyBlanks_lexemes ws input).append (.cons nofun onlyBlanks_nil)))
  | .access target none _ =>
    (Expr.onlyBlanks_lexemes ws target).append (.cons nofun onlyBlanks_nil)
  | .access target (some _) _ =>
    (Expr.onlyBlanks_lexemes ws target).append (.cons nofun (.cons nofun onlyBlanks_nil))
  | .block [] _ => .cons nofun (.cons nofun onlyBlanks_nil)
  | .block (s :: ss) _ =>
    .cons nofun ((Stmt.onlyBlanks_lexemesAll [] (s :: ss)).append (.cons nofun onlyBlanks_nil))

theorem Stmt.onlyBlanks_lexemes (ws : List Space) :
    ∀ s : Stmt, OnlyBlanks (s.lexemes .singleLine ws)
  | .absent => onlyBlanks_nil
  | .binding none value _ | .stated value _ =>
    (Expr.onlyBlanks_lexemes ws value).append (.cons nofun onlyBlanks_nil)
  | .binding (some name) value _ => by
    have hvalue := (Expr.onlyBlanks_lexemes ws value).append
      (.cons (x := .punct .semicolon) nofun onlyBlanks_nil)
    exact .cons nofun (.blank (.cons nofun (.blank (.cons nofun (.blank hvalue)))))

theorem Stmt.onlyBlanks_lexemesAll (ws : List Space) :
    ∀ ss : List Stmt, OnlyBlanks (Stmt.lexemesAll .singleLine ws ss)
  | [] => onlyBlanks_nil
  | s :: ss => (Stmt.onlyBlanks_lexemes ws s).append (Stmt.onlyBlanks_lexemesMore ws ss)

theorem Stmt.onlyBlanks_lexemesMore (ws : List Space) :
    ∀ ss : List Stmt, OnlyBlanks (Stmt.lexemesMore .singleLine ws ss)
  | [] => onlyBlanks_nil
  | s :: ss => .blank ((Stmt.onlyBlanks_lexemes ws s).append (Stmt.onlyBlanks_lexemesMore ws ss))

end

/-! ## Reading both texts -/

/-- The two texts are read to the end as the same lexemes but for spaces, and the first of them has no
spaces but blanks. -/
def DifferInSpaces (line lines : Text) : Prop :=
  ∃ ts us, ReadsAll line.toSource ts ∧ ReadsAll lines.toSource us ∧
    solid (ts.map Token.lexeme) = solid (us.map Token.lexeme) ∧ OnlyBlanks (ts.map Token.lexeme)

theorem differInSpaces_of_readable {xs ys : List Lexeme} (hxs : Readable xs) (hys : Readable ys)
    (same : solid xs = solid ys) (blanks : OnlyBlanks xs) :
    DifferInSpaces (Text.ofChars (spellAll xs)) (Text.ofChars (spellAll ys)) := by
  obtain ⟨ts, reads, rfl⟩ := exists_readsAll_spellAll hxs
  obtain ⟨us, reads', rfl⟩ := exists_readsAll_spellAll hys
  unfold DifferInSpaces
  rw [Text.toSource_ofChars, Text.toSource_ofChars]
  exact ⟨ts, us, reads, reads', same, blanks⟩

/-- A node that has a text in both styles, and these differ in spaces only. -/
def Node.RestyledBehind (n : Node) (ws : List Space) : Prop :=
  ∃ line lines, n.text? .singleLine (Text.ofSpaces ws) = some line ∧
    n.text? .multiLine (Text.ofSpaces ws) = some lines ∧ DifferInSpaces line lines

theorem Program.restyled {o : Options} {p : Program} (h : Stmt.AllWellFormed o p.stmts)
    (ws : List Space) : (Node.program p).RestyledBehind ws := by
  have hreadable (style : Style) : Readable (Stmt.lexemesAll style ws p.stmts) := by
    have hbefore : Readable (Stmt.lexemesAll style ws p.stmts ++ []) :=
      Stmt.readable_lexemesAll style ws h trivial
    rwa [List.append_nil] at hbefore
  refine ⟨_, _, text_program h .singleLine ws, text_program h .multiLine ws, ?_⟩
  refine differInSpaces_of_readable (hreadable .singleLine) (hreadable .multiLine) ?_
    (Stmt.onlyBlanks_lexemesAll ws p.stmts)
  rw [Stmt.solid_lexemesAll .singleLine ws, Stmt.solid_lexemesAll .multiLine ws]

theorem Expr.restyled {o : Options} {x : Expr} (h : x.WellFormed o) (ws : List Space) :
    (Node.expr x).RestyledBehind ws := by
  have hreadable (style : Style) : Readable (x.lexemes style ws) := by
    have hbefore : Readable (x.lexemes style ws ++ []) :=
      Expr.readable_lexemes style ws h nofun trivial
    rwa [List.append_nil] at hbefore
  refine ⟨_, _, text_expr h .singleLine ws, text_expr h .multiLine ws, ?_⟩
  refine differInSpaces_of_readable (hreadable .singleLine) (hreadable .multiLine) ?_
    (Expr.onlyBlanks_lexemes ws x)
  rw [Expr.solid_lexemes .singleLine ws, Expr.solid_lexemes .multiLine ws]

/-- What is parsed from any source is written in both styles, behind any indentation, with the same
lexemes but for spaces. -/
theorem styles_differ_in_spaces (o : Options) (source : Source) (ws : List Space) :
    (Node.program (parse o source).tree).RestyledBehind ws ∧
      ∀ x, (parseExpression o source).tree = some x → (Node.expr x).RestyledBehind ws :=
  ⟨Program.restyled (wellFormed_parse o source) ws,
    fun _ htree => Expr.restyled (wellFormed_parseExpression htree) ws⟩

end LetLang
