import Mathlib.Data.List.Forall2
import LetLang.Kind
import LetLang.Proofs.Acceptance
import LetLang.Proofs.Nested
import LetLang.Proofs.Relabel
import LetLang.Proofs.Spelling

/-!
# What a parse depends on

Two cursors whose remaining tokens have the same kinds are read alike, whatever their sources and
positions are and whatever keeps them from being read further: the trees are the same up to spans, the
same number of tokens is taken, and every node takes tokens with the same numbers.

Both readings are compared with a third one, on tokens that have their own numbers as positions. The
tokens of a cursor are these tokens at other positions, so the tree of the third reading serves as a
plan for the other two: its spans are the numbers of the tokens where each node begins and ends.
-/
namespace LetLang

/-! ## Kinds -/

theorem Lexeme.Class.name_inj : ∀ c c' : Lexeme.Class,
    Text.ofString c.name = Text.ofString c'.name → c = c' := by
  intro c c'
  cases c <;> cases c' <;> decide

theorem Lexeme.standsAlone_of_classOf {x y : Lexeme} (h : x.classOf = y.classOf) :
    x.standsAlone = y.standsAlone := by
  cases x <;> cases y <;> first | rfl | cases h

/-- Class, literal and delimiter determine a lexeme. -/
theorem Kind.ofLexeme_inj {x y : Lexeme} (h : Kind.ofLexeme x = Kind.ofLexeme y) : x = y := by
  have hclass : x.classOf = y.classOf := Lexeme.Class.name_inj _ _ (congrArg Kind.className h)
  have hliteral : x.literal = y.literal := Text.ofChars_inj.mp (congrArg Kind.literal h)
  have halone := Lexeme.standsAlone_of_classOf hclass
  by_cases hx : x.standsAlone = true
  · obtain ⟨c, -, hc⟩ := Lexeme.exists_char hx
    obtain ⟨c', -, hc'⟩ := Lexeme.exists_char (halone ▸ hx)
    rw [Lexeme.literal_of_ofChar? hc, Lexeme.literal_of_ofChar? hc', List.singleton_inj] at hliteral
    rw [hliteral, hc'] at hc
    exact (Option.some.inj hc).symm
  · cases x with
    | keyword k =>
      cases y with
      | keyword k' =>
        have hword : Keyword.ofWord? k.spelling = some k' := by
          rw [show k.spelling = k'.spelling from hliteral, Keyword.ofWord?_spelling]
        rw [Keyword.ofWord?_spelling] at hword
        rw [Option.some.inj hword]
      | _ => cases hclass
    | ident name =>
      cases y with
      | ident name' => rw [show name = name' from hliteral]
      | _ => cases hclass
    | quoted q text =>
      cases y with
      | quoted q' text' =>
        have hquote : q.sourceChar = q'.sourceChar := Option.some.inj (congrArg Kind.quote h)
        have hread := SourceChar.quote?_eq_some_iff.mpr hquote
        rw [SourceChar.quote?_eq_some_iff.mpr rfl] at hread
        rw [show text = text' from hliteral, Option.some.inj hread]
      | _ => cases hclass
    | _ => exact absurd rfl hx

theorem lexemes_of_kinds {ts us : List Token}
    (h : ts.map (fun t => Kind.ofLexeme t.lexeme) = us.map fun u => Kind.ofLexeme u.lexeme) :
    ts.map Token.lexeme = us.map Token.lexeme := by
  have hinj : Function.Injective Kind.ofLexeme := fun _ _ => Kind.ofLexeme_inj
  apply List.map_injective_iff.mpr hinj
  rw [List.map_map, List.map_map]
  exact h

/-! ## Tokens by number -/

/-- Tokens whose positions are the numbers from `k` on. -/
def numbered (k : Nat) : List Lexeme → List Token
  | [] => []
  | x :: xs => ⟨x, k, k⟩ :: numbered (k + 1) xs

theorem tiles_numbered (k : Nat) (xs : List Lexeme) :
    Tiles k (numbered k xs) (k + xs.length) := by
  induction xs generalizing k with
  | nil => rfl
  | cons x xs ih =>
    have htail := ih (k + 1)
    rw [Nat.add_right_comm] at htail
    exact ⟨rfl, Nat.le_refl k, htail⟩

/-- Where the token with the given number begins. -/
def firstOf (ts : List Token) (i : Nat) : Nat :=
  (ts[i]?.map Token.first).getD 0

/-- Where the token with the given number ends. -/
def lastOf (ts : List Token) (i : Nat) : Nat :=
  (ts[i]?.map Token.last).getD 0

theorem map_numbered_append (us ts : List Token) :
    (numbered us.length (ts.map Token.lexeme)).map
      (Token.relabel (firstOf (us ++ ts)) (lastOf (us ++ ts))) = ts := by
  induction ts generalizing us with
  | nil => rfl
  | cons t ts ih =>
    have htail := ih (us ++ [t])
    rw [List.append_assoc, List.singleton_append, List.length_append, List.length_singleton] at htail
    have hget : (us ++ t :: ts)[us.length]? = some t := by simp
    rw [List.map_cons, numbered, List.map_cons, htail, Token.relabel, firstOf, lastOf, hget]
    rfl

/-- Tokens are the numbered ones, moved to their places. -/
theorem map_numbered (ts : List Token) :
    (numbered 0 (ts.map Token.lexeme)).map (Token.relabel (firstOf ts) (lastOf ts)) = ts :=
  map_numbered_append [] ts

/-! ## Trees that agree -/

/-- The span begins with the token number `i` and ends with the token number `j`. -/
def Span.Runs (ts : List Token) (i j : Nat) (s : Span) : Prop :=
  i ≤ j ∧ ∃ t u, ts[i]? = some t ∧ ts[j]? = some u ∧ s = ⟨t.first, u.last⟩

/-- Two nodes take tokens with the same numbers, each from its own list. -/
def Node.SameTokens (ts us : List Token) (n m : Node) : Prop :=
  ∃ i j s t, n.span? = some s ∧ m.span? = some t ∧ s.Runs ts i j ∧ t.Runs us i j

/-- The statements and expressions of a tree, in the order of a walk. -/
def Node.parts : Node → List Node
  | .program p => (p.stmts.map Node.stmt).flatMap Node.nodes
  | n => n.nodes

/-- Two trees are equal up to spans, and node by node they take tokens with the same numbers. -/
structure Node.Alike (ts us : List Token) (n m : Node) : Prop where
  tree : n.eraseSpans = m.eraseSpans
  tokens : List.Forall₂ (Node.SameTokens ts us) n.parts m.parts

theorem Node.parts_mapSpan (f : Span → Span) (n : Node) :
    (n.mapSpan f).parts = n.parts.map (Node.mapSpan f) := by
  cases n with
  | program p =>
    change (Node.program (p.mapSpan f)).children.flatMap nodes = _
    rw [show Node.program (p.mapSpan f) = (Node.program p).mapSpan f from rfl, children_mapSpan,
      List.flatMap_map]
    simp only [nodes_mapSpan]
    exact List.map_flatMap.symm
  | stmt | expr | missingName | foreign => exact nodes_mapSpan f _

theorem Node.not_program_of_mem_parts {n m : Node} (hm : m ∈ n.parts) (p : Program) :
    m ≠ .program p := by
  rintro rfl
  cases n with
  | program q =>
    obtain ⟨m, hms, hmp⟩ := List.mem_flatMap.mp hm
    obtain ⟨s, -, rfl⟩ := List.mem_map.mp hms
    exact program_not_mem_nodes (by rintro q ⟨⟩) p hmp
  | stmt | expr | missingName | foreign => exact program_not_mem_nodes (by rintro q ⟨⟩) p hm

/-- A span over numbered tokens, moved to the places of these tokens. -/
theorem Span.runs_relabel {ts : List Token} {s : Span} {a b : Nat} (covers : s.Covers a b)
    (hb : b ≤ ts.length) : (s.relabel (firstOf ts) (lastOf ts)).Runs ts a (b - 1) := by
  obtain ⟨hlt, hstart, hstop⟩ := covers
  have hfirst : ts[a]? = some ts[a] := List.getElem?_eq_getElem (by omega)
  have hlast : ts[b - 1]? = some ts[b - 1] := List.getElem?_eq_getElem (by omega)
  have hstart' : s.start.toNat = a := by omega
  have hstop' : s.stop.toNat = b - 1 := by omega
  refine ⟨by omega, _, _, hfirst, hlast, ?_⟩
  rw [Span.relabel, firstOf, lastOf, hstart', hstop', hfirst, hlast]
  rfl

/-- Two trees with one plan are alike. -/
theorem Node.Alike.of_plan {ts us : List Token} {n : Node} (length : ts.length = us.length)
    (plan : ∀ m ∈ n.parts, ∃ s a b, m.span? = some s ∧ s.Covers a b ∧ b ≤ ts.length) :
    (n.mapSpan (Span.relabel (firstOf ts) (lastOf ts))).Alike ts us
      (n.mapSpan (Span.relabel (firstOf us) (lastOf us))) := by
  constructor
  · rw [eraseSpans_mapSpan, eraseSpans_mapSpan]
  · rw [parts_mapSpan, parts_mapSpan, List.forall₂_map_left_iff, List.forall₂_map_right_iff,
      List.forall₂_same]
    intro m hm
    obtain ⟨s, a, b, hs, covers, hb⟩ := plan m hm
    have part := not_program_of_mem_parts hm
    refine ⟨a, b - 1, _, _, ?_, ?_, s.runs_relabel covers hb, s.runs_relabel covers (length ▸ hb)⟩
    · rw [span?_mapSpan _ part, hs, Option.map_some]
    · rw [span?_mapSpan _ part, hs, Option.map_some]

/-! ## Readings that agree -/

/-- Two readings, from `c` to `c'` and from `d` to `d'`, agree: both give a tree or none does, they take
equally many tokens, and the trees are alike. -/
structure SameOutcome (c d : Cursor) (tree tree' : Option Node) (c' d' : Cursor) : Prop where
  matched : tree.isSome = tree'.isSome
  taken : ∃ ts us, c.Run ts c' ∧ d.Run us d' ∧ ts.length = us.length
  alike : ∀ n m, tree = some n → tree' = some m → n.Alike c.tokens d.tokens m

namespace Parse

open Grammar

theorem parts_of_node {φ : Phrase} {n : Node} (h : φ.node? = some n) :
    n.parts = φ.roots.flatMap Node.nodes := by
  cases φ with
  | stmts => cases h
  | _ =>
    cases h
    exact (List.flatMap_singleton _ _).symm

/-- In what is derived from numbered tokens the spans are numbers of tokens. -/
theorem plan_of_derives {o : Options} {φ : Phrase} {ts left : List Token}
    (h : Derives o φ (numbered 0 (ts.map Token.lexeme)) left) {m : Node}
    (hm : m ∈ φ.roots.flatMap Node.nodes) :
    ∃ s a b, m.span? = some s ∧ s.Covers a b ∧ b ≤ ts.length := by
  have tiles := tiles_numbered 0 (ts.map Token.lexeme)
  rw [Nat.zero_add, List.length_map] at tiles
  obtain ⟨mid, after, -⟩ := h.covers tiles
  obtain ⟨s, a, b, hs, covers, -, hb, -⟩ := (h.nested tiles after).mem hm
  exact ⟨s, a, b, hs, covers, Nat.le_trans hb after.le⟩

/-- A node at other positions, with the tokens left. -/
def relabelNode (f g : Nat → Nat) (m : Node × List Token) : Node × List Token :=
  (m.1.mapSpan (Span.relabel f g), m.2.map (Token.relabel f g))

theorem result_relabel_expr {f g : Nat → Nat} {ts us : List Token} {a : Attempt Expr ts}
    {b : Attempt Expr us} (h : a.matched = b.matched.map (relabelExpr f g)) :
    (a.outcome.map Node.expr).result = (b.outcome.map Node.expr).result.map (relabelNode f g) := by
  change a.matched.map _ = (b.matched.map _).map _
  rw [h, Option.map_map, Option.map_map]
  rfl

theorem result_relabel_stmt {f g : Nat → Nat} {ts us : List Token} {a : Attempt Stmt ts}
    {b : Attempt Stmt us} (h : a.matched = b.matched.map (relabelStmt f g)) :
    (a.outcome.map Node.stmt).result = (b.outcome.map Node.stmt).result.map (relabelNode f g) := by
  change a.matched.map _ = (b.matched.map _).map _
  rw [h, Option.map_map, Option.map_map]
  rfl

theorem Production.outcome_relabel (o : Options) (f g : Nat → Nat) (p : Production)
    (ts : List Token) :
    (p.outcome o (ts.map (Token.relabel f g))).result =
      (p.outcome o ts).result.map (relabelNode f g) := by
  have below := relabelsBelow o f g ts.length
  cases p with
  | stmt => exact result_relabel_stmt below.stmt
  | letStmt => exact result_relabel_stmt below.letStmt
  | exprStmt => exact result_relabel_stmt below.exprStmt
  | expr => exact result_relabel_expr below.exprAt
  | call =>
    have hexpr := below.exprAt
    rw [expr_eq, expr_eq] at hexpr
    exact result_relabel_expr hexpr
  | access => exact result_relabel_expr below.access
  | primary => exact result_relabel_expr below.primary
  | number => exact result_relabel_expr (number_relabel ts)
  | block => exact result_relabel_expr below.block

theorem cursor_of_unmatched {α : Type} {f : List Token → Outcome α} {c : Cursor}
    (h : (f c.tokens).result = none) : (readAt f c).cursor = c := by
  unfold readAt
  split
  next => rfl
  next hr =>
    rw [hr] at h
    cases h

section

variable {c d : Cursor} (same : c.tokens.map Token.lexeme = d.tokens.map Token.lexeme)
include same

theorem sameOutcome_of_plan {n : Node} {left : List Token}
    (suffix : left <:+ numbered 0 (c.tokens.map Token.lexeme))
    (plan : ∀ m ∈ n.parts, ∃ s a b, m.span? = some s ∧ s.Covers a b ∧ b ≤ c.tokens.length) :
    SameOutcome c d (some (n.mapSpan (Span.relabel (firstOf c.tokens) (lastOf c.tokens))))
      (some (n.mapSpan (Span.relabel (firstOf d.tokens) (lastOf d.tokens))))
      (c.before (left.map (Token.relabel (firstOf c.tokens) (lastOf c.tokens))))
      (d.before (left.map (Token.relabel (firstOf d.tokens) (lastOf d.tokens)))) := by
  obtain ⟨used, hused⟩ := suffix
  have hc := map_numbered c.tokens
  have hd := map_numbered d.tokens
  rw [← same] at hd
  rw [← hused, List.map_append] at hc hd
  have hlength : c.tokens.length = d.tokens.length := by
    rw [← List.length_map Token.lexeme, same, List.length_map]
  refine ⟨rfl, ⟨_, _, (Cursor.run_before hc.symm).1, (Cursor.run_before hd.symm).1, ?_⟩, ?_⟩
  · rw [List.length_map, List.length_map]
  · rintro _ _ ⟨⟩ ⟨⟩
    exact .of_plan hlength plan

/-- A production reads alike at two cursors with the same lexemes left. -/
theorem sameOutcome_read (o : Options) (p : Production) :
    SameOutcome c d (p.read o c).result (p.read o d).result (p.read o c).cursor (p.read o d).cursor := by
  have hc := p.outcome_relabel o (firstOf c.tokens) (lastOf c.tokens) (numbered 0 (c.tokens.map Token.lexeme))
  have hd := p.outcome_relabel o (firstOf d.tokens) (lastOf d.tokens) (numbered 0 (d.tokens.map Token.lexeme))
  rw [map_numbered] at hc hd
  rw [← same] at hd
  cases hr : (p.outcome o (numbered 0 (c.tokens.map Token.lexeme))).result with
  | none =>
    rw [hr] at hc hd
    unfold Production.read
    rw [readAt_of_none hc, readAt_of_none hd, cursor_of_unmatched hc, cursor_of_unmatched hd]
    exact ⟨rfl, ⟨[], [], .stay c, .stay d, rfl⟩, nofun⟩
  | some m =>
    obtain ⟨n, left⟩ := m
    rw [hr] at hc hd
    obtain ⟨φ, derived, hn⟩ := Production.derives hr
    unfold Production.read
    rw [(readAt_of_some hc).1, (readAt_of_some hd).1, (readAt_of_some hc).2, (readAt_of_some hd).2]
    refine sameOutcome_of_plan same derived.suffix fun m hm => ?_
    rw [parts_of_node hn] at hm
    exact plan_of_derives derived hm

theorem sameOutcome_readProgram (o : Options) :
    SameOutcome c d (some (.program (readProgram o c).result))
      (some (.program (readProgram o d).result)) (readProgram o c).cursor (readProgram o d).cursor := by
  have derived := derives_stmts o (numbered 0 (c.tokens.map Token.lexeme))
  obtain ⟨hc, hc'⟩ := stmts_relabel o (firstOf c.tokens) (lastOf c.tokens)
    (numbered 0 (c.tokens.map Token.lexeme))
  obtain ⟨hd, hd'⟩ := stmts_relabel o (firstOf d.tokens) (lastOf d.tokens)
    (numbered 0 (d.tokens.map Token.lexeme))
  rw [map_numbered] at hc hc' hd hd'
  rw [← same] at hd hd'
  unfold readProgram
  simp only [hc, hc', hd, hd', skipSpaces_relabel]
  exact sameOutcome_of_plan same (n := .program ⟨_⟩)
    ((spaces_skipSpaces _).suffix.trans derived.suffix) fun m hm => plan_of_derives derived hm

end

/-- Every production, and the reading of a program, depends on nothing but the kinds of the tokens that
are left. -/
theorem read_of_kinds_eq {c d : Cursor}
    (h : c.tokens.map (fun t => Kind.ofLexeme t.lexeme) =
      d.tokens.map fun t => Kind.ofLexeme t.lexeme) (o : Options) :
    (∀ p : Production, SameOutcome c d (p.read o c).result (p.read o d).result
      (p.read o c).cursor (p.read o d).cursor) ∧
    SameOutcome c d (some (.program (readProgram o c).result))
      (some (.program (readProgram o d).result)) (readProgram o c).cursor (readProgram o d).cursor := by
  have same := lexemes_of_kinds h
  exact ⟨sameOutcome_read same o, sameOutcome_readProgram same o⟩

theorem read_of_kinds_eq_before_quote :
    (Cursor.mk ("a (1) ".toList.map .char) 0).tokens.map (fun t => Kind.ofLexeme t.lexeme) =
        (Cursor.mk (";\ta (1) 'c".toList.map .char) 2).tokens.map (fun t => Kind.ofLexeme t.lexeme) ∧
      (Production.stmt.read .all (Cursor.mk ("a (1) ".toList.map .char) 0)).result.isSome = true ∧
      (Production.stmt.read .all (Cursor.mk (";\ta (1) 'c".toList.map .char) 2)).result.isSome = true := by
  have h : (Cursor.mk ("a (1) ".toList.map .char) 0).tokens.map (fun t => Kind.ofLexeme t.lexeme) =
      (Cursor.mk (";\ta (1) 'c".toList.map .char) 2).tokens.map (fun t => Kind.ofLexeme t.lexeme) := by
    decide +kernel
  have hsome : (Production.stmt.read .all (Cursor.mk ("a (1) ".toList.map .char) 0)).result.isSome =
      true := by decide +kernel
  refine ⟨h, hsome, ?_⟩
  rw [← ((read_of_kinds_eq h .all).1 .stmt).matched]
  exact hsome

end Parse

end LetLang
