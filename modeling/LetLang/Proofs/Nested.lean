import Mathlib.Data.List.Chain
import LetLang.Proofs.Extent
import LetLang.Proofs.Nodes

/-!
# Spans nest

The spans of what the parser returns form a forest over the positions of the source: the children of a
node stand one after another inside the node, and the same holds inside each of them. `Nested` says this
for trees that stand side by side, and everything about the spans of a tree follows from it: the bounds,
the order of the children, and that the nodes around a position are a path down from the root.
-/
namespace LetLang

theorem Tiles.start_eq {a b hi : Nat} {ts : List Token} (h : Tiles a ts hi)
    (h' : Tiles b ts hi) : a = b := by
  cases ts with
  | nil => exact Eq.trans h h'.symm
  | cons t ts => exact h.1.symm.trans h'.1

/-- The span of one token. -/
theorem Span.Covers.token {first last : Nat} (h : first ≤ last) :
    Span.Covers ⟨first, last⟩ first (last + 1) :=
  ⟨by omega, rfl, by simp⟩

/-- The first span lies inside the second. -/
def Span.Inside (s t : Span) : Prop :=
  t.start ≤ s.start ∧ s.stop ≤ t.stop

/-- The first node ends before the second one begins. -/
def Node.Before (m n : Node) : Prop :=
  ∃ s t, m.span? = some s ∧ n.span? = some t ∧ s.stop < t.start

/-- The span of the node holds the position. -/
def Node.covers (offset : Int) (n : Node) : Bool :=
  n.span?.any fun s => s.contains offset

/-- The nodes of a tree around a position, in the order of a walk. -/
def Node.around (offset : Int) (n : Node) : List Node :=
  n.nodes.filter (Node.covers offset)

/-- The trees stand one after another between two positions, each with its own children nested between
the two positions that it covers. -/
inductive Nested : Nat → Nat → List Node → Prop
  | nil {lo hi : Nat} (le : lo ≤ hi) : Nested lo hi []
  | cons {lo hi a b : Nat} {n : Node} {ns : List Node} {s : Span} (gap : lo ≤ a)
      (place : n.span? = some s) (covers : s.Covers a b) (inside : Nested a b n.children)
      (next : Nested b hi ns) : Nested lo hi (n :: ns)

namespace Nested

variable {lo hi a b : Nat} {ms ns : List Node}

theorem le (h : Nested lo hi ns) : lo ≤ hi := by
  induction h with
  | nil le => exact le
  | cons gap _ covers _ _ _ ih =>
    have hlt := covers.1
    omega

theorem widen (h : Nested lo hi ns) (hlo : a ≤ lo) (hhi : hi ≤ b) : Nested a b ns := by
  induction h generalizing a with
  | nil le => exact .nil (by omega)
  | cons gap place covers inside _ _ ih =>
    exact .cons (by omega) place covers inside (ih (Nat.le_refl _) hhi)

theorem append (h : Nested lo a ms) (gap : a ≤ b) (h' : Nested b hi ns) : Nested lo hi (ms ++ ns) := by
  induction h with
  | nil le => exact h'.widen (by omega) (Nat.le_refl hi)
  | cons gap' place covers inside _ _ ih => exact .cons gap' place covers inside (ih gap)

theorem pair {m n : Node} (h : Nested lo a [m]) (gap : a ≤ b) (h' : Nested b hi [n]) :
    Nested lo hi [m, n] :=
  h.append gap h'

/-- A node without children. -/
theorem leaf {n : Node} {s : Span} (place : n.span? = some s) (covers : s.Covers a b)
    (childless : n.children = []) : Nested a b [n] := by
  refine .cons (Nat.le_refl a) place covers ?_ (.nil (Nat.le_refl b))
  rw [childless]
  exact .nil (Nat.le_of_lt covers.1)

theorem name (text : Text) {first last : Nat} (h : first ≤ last) :
    Nested first (last + 1) [.expr (.ident ⟨text, ⟨first, last⟩⟩)] :=
  leaf rfl (.token h) rfl

/-! ## What follows from nesting -/

/-- Every node of nested trees has a span, between the outer positions and around its own children. -/
theorem mem (h : Nested lo hi ns) {n : Node} (hn : n ∈ ns.flatMap Node.nodes) :
    ∃ s a b, n.span? = some s ∧ s.Covers a b ∧ lo ≤ a ∧ b ≤ hi ∧ Nested a b n.children := by
  induction h with
  | nil => cases hn
  | @cons lo hi a b m ns s gap place covers inside next ihi ihn =>
    have hnext := next.le
    rw [List.flatMap_cons, Node.nodes_eq (Node.kind?_of_span? place), List.cons_append] at hn
    rcases List.mem_cons.mp hn with rfl | hn
    · exact ⟨s, a, b, place, covers, gap, hnext, inside⟩
    · rcases List.mem_append.mp hn with hn | hn
      · obtain ⟨t, c, d, ht, hcov, hc, hd, hin⟩ := ihi hn
        exact ⟨t, c, d, ht, hcov, by omega, by omega, hin⟩
      · obtain ⟨t, c, d, ht, hcov, hc, hd, hin⟩ := ihn hn
        have hlt := covers.1
        exact ⟨t, c, d, ht, hcov, by omega, hd, hin⟩

theorem mem_roots (h : Nested lo hi ns) {n : Node} (hn : n ∈ ns) :
    ∃ s a b, n.span? = some s ∧ s.Covers a b ∧ lo ≤ a ∧ b ≤ hi := by
  induction h with
  | nil => cases hn
  | @cons lo hi a b m ns s gap place covers _ next _ ihn =>
    have hlt := covers.1
    have hnext := next.le
    rcases List.mem_cons.mp hn with rfl | hn
    · exact ⟨s, a, b, place, covers, gap, hnext⟩
    · obtain ⟨t, c, d, ht, hcov, hc, hd⟩ := ihn hn
      exact ⟨t, c, d, ht, hcov, by omega, hd⟩

/-- Trees side by side are in source order. -/
theorem pairwise_before (h : Nested lo hi ns) : ns.Pairwise Node.Before := by
  induction h with
  | nil => exact List.Pairwise.nil
  | cons _ place covers _ next _ ih =>
    refine List.pairwise_cons.mpr ⟨fun n hn => ?_, ih⟩
    obtain ⟨t, c, d, ht, hcov, hc, -⟩ := next.mem_roots hn
    obtain ⟨-, -, hstop⟩ := covers
    obtain ⟨-, hstart, -⟩ := hcov
    exact ⟨_, t, place, ht, by omega⟩

theorem covers_iff {n : Node} {s : Span} {offset : Int} (place : n.span? = some s)
    (covers : s.Covers a b) : n.covers offset = true ↔ (a : Int) ≤ offset ∧ offset < b := by
  obtain ⟨-, hstart, hstop⟩ := covers
  simp only [Node.covers, place, Option.any_some, Span.contains, decide_eq_true_iff]
  omega

/-- Outside the outer positions no node covers anything. -/
theorem filter_outside (h : Nested lo hi ns) {offset : Int} (out : offset < lo ∨ hi ≤ offset) :
    (ns.flatMap Node.nodes).filter (Node.covers offset) = [] := by
  refine List.filter_eq_nil_iff.mpr fun n hn => ?_
  obtain ⟨s, c, d, hs, hcov, hc, hd, -⟩ := h.mem hn
  rw [covers_iff hs hcov]
  omega

/-- The nodes around a position are a path: it begins with one of the roots, and each node on it is
followed by one of its children. -/
theorem path (h : Nested lo hi ns) (offset : Int) :
    ((ns.flatMap Node.nodes).filter (Node.covers offset)).IsChain (fun n m => m ∈ n.children) ∧
      ∀ n, ((ns.flatMap Node.nodes).filter (Node.covers offset)).head? = some n → n ∈ ns := by
  induction h with
  | nil => exact ⟨.nil, nofun⟩
  | @cons lo hi a b n ns s gap place covers inside next ihi ihn =>
    have hiff : n.covers offset = true ↔ _ := covers_iff place covers
    rw [List.flatMap_cons, Node.nodes_eq (Node.kind?_of_span? place), List.filter_append]
    by_cases hin : n.covers offset = true
    · have hbounds := hiff.mp hin
      obtain ⟨hchain, hhead⟩ := ihi
      rw [next.filter_outside (by omega), List.filter_cons_of_pos hin, List.append_nil]
      refine ⟨List.isChain_cons.mpr ⟨hhead, hchain⟩, ?_⟩
      rintro m ⟨⟩
      exact List.mem_cons_self
    · have hbounds := (not_congr hiff).mp hin
      obtain ⟨hchain, hhead⟩ := ihn
      rw [List.filter_cons_of_neg hin, inside.filter_outside (by omega), List.nil_append]
      exact ⟨hchain, fun m hm => List.mem_cons_of_mem n (hhead m hm)⟩

/-- Trees side by side are nested from the beginning of the first to the end of the last. -/
theorem tighten (h : Nested lo hi ns) {first last : Node} (hfirst : ns.head? = some first)
    (hlast : ns.getLast? = some last) :
    ∃ s t a b, first.span? = some s ∧ last.span? = some t ∧ Span.Covers ⟨s.start, t.stop⟩ a b ∧
      lo ≤ a ∧ b ≤ hi ∧ Nested a b ns := by
  induction h generalizing first last with
  | nil => cases hfirst
  | @cons lo hi a b n ns s gap place covers inside next _ ihn =>
    cases hfirst
    cases ns with
    | nil =>
      cases hlast
      exact ⟨s, s, a, b, place, place, covers, gap, next.le,
        .cons (Nat.le_refl a) place covers inside (.nil (Nat.le_refl b))⟩
    | cons m ns =>
      rw [List.getLast?_cons_cons] at hlast
      obtain ⟨_, t, c, d, -, ht, ⟨hcd, -, hstop⟩, hc, hd, htight⟩ := ihn rfl hlast
      have hab := covers.1
      exact ⟨s, t, a, d, place, ht, ⟨by omega, covers.2.1, hstop⟩, gap, hd,
        .cons (Nat.le_refl a) place covers inside (htight.widen hc (Nat.le_refl d))⟩

end Nested

namespace Grammar

open Parse (Options)

/-- The trees of a phrase. -/
def Phrase.roots : Phrase → List Node
  | .stmts ss => ss.map .stmt
  | .stmt s | .letStmt s | .exprStmt s => [.stmt s]
  | .expr e | .access e | .primary e | .number e | .block e => [.expr e]

section Nested

variable {o : Options} {φ : Phrase} {ts rest : List Token} {lo mid hi : Nat}

/-- A phrase with one tree is nested if the children of the tree are. -/
theorem Derives.nested_node {n : Node} (h : Derives o φ ts rest) (tiles : Tiles lo ts hi)
    (after : Tiles mid rest hi) (hn : φ.node? = some n) (below : Nested lo mid n.children) :
    Nested lo mid [n] := by
  obtain ⟨mid', after', covers⟩ := h.covers tiles
  obtain rfl := after'.start_eq after
  obtain ⟨s, hs, hcovers⟩ := covers.node h.present hn
  exact .cons (Nat.le_refl lo) hs hcovers below (.nil (Nat.le_refl _))

theorem Derives.nested (h : Derives o φ ts rest) (tiles : Tiles lo ts hi)
    (after : Tiles mid rest hi) : Nested lo mid φ.roots := by
  induction h generalizing lo mid with
  | noStmt => exact .nil (Nat.le_of_eq (tiles.start_eq after))
  | moreStmts ws head _ ihs ihss =>
    obtain ⟨a, ha, ta⟩ := ws.tiles tiles
    obtain ⟨b, tb, -⟩ := head.covers ta
    exact ((ihs ta tb).widen ha (Nat.le_refl b)).append (Nat.le_refl b) (ihss tb after)
  | letStmt _ ih => exact ih tiles after
  | exprStmt _ ih => exact ih tiles after
  | binding ws ws₁ ws₂ bound ending ih =>
    obtain ⟨hf, hl, t⟩ := tiles.cons
    obtain ⟨hfa, hla, ta⟩ := ws.tiles_token t
    obtain ⟨hfb, hlb, tb⟩ := ws₁.tiles_token ta
    obtain ⟨c, hc, tc⟩ := ws₂.tiles tb
    obtain ⟨d, td, covers⟩ := bound.covers tc
    obtain ⟨e, he, te, -⟩ := ending.tiles td covers.2.2
    obtain rfl := te.start_eq after
    refine (Derives.binding ws ws₁ ws₂ bound ending).nested_node tiles te rfl ?_
    exact ((Nested.name _ hla).pair (by omega) (ih tc td)).widen (by omega) he
  | stated said ending ih =>
    obtain ⟨a, ta, covers⟩ := said.covers tiles
    obtain ⟨b, hb, tb, -⟩ := ending.tiles ta covers.2.2
    obtain rfl := tb.start_eq after
    refine (Derives.stated said ending).nested_node tiles tb rfl ?_
    exact (ih tiles ta).widen (Nat.le_refl lo) hb
  | bare _ ih => exact ih tiles after
  | call callee ws ws₁ argument ws₂ ihc ihi =>
    obtain ⟨a, ta, -⟩ := callee.covers tiles
    obtain ⟨hfb, hlb, tb⟩ := ws.tiles_token ta
    obtain ⟨c, hc, tc⟩ := ws₁.tiles tb
    obtain ⟨d, td, -⟩ := argument.covers tc
    obtain ⟨hfe, hle, te⟩ := ws₂.tiles_token td
    obtain rfl := te.start_eq after
    refine (Derives.call callee ws ws₁ argument ws₂).nested_node tiles te rfl ?_
    exact ((ihc tiles ta).pair (by omega) (ihi tc td)).widen (Nat.le_refl lo) (by omega)
  | target _ ih => exact ih tiles after
  | field on object ih =>
    obtain ⟨a, ta, -⟩ := object.covers tiles
    obtain ⟨hfa, hla, tb⟩ := ta.cons
    obtain ⟨hfb, hlb, tc⟩ := tb.cons
    obtain rfl := tc.start_eq after
    refine (Derives.field on object).nested_node tiles tc rfl ?_
    exact (ih tiles ta).pair (by omega) (Nested.name _ hlb)
  | ident | trueLit | falseLit | quoted =>
    obtain ⟨hf, hl, t⟩ := tiles.cons
    obtain rfl := t.start_eq after
    obtain rfl := hf
    exact .leaf rfl (.token hl) rfl
  | numeral _ ih => exact ih tiles after
  | braced _ _ ih => exact ih tiles after
  | @number t run rest ds digits maximal fits =>
    have derived : Derives o (.number _) _ rest := .number digits maximal fits
    obtain ⟨mid', after', covers⟩ := derived.covers tiles
    obtain rfl := after'.start_eq after
    exact .leaf rfl covers rfl
  | block body ws ih =>
    obtain ⟨hf, hl, t⟩ := tiles.cons
    obtain ⟨a, ta, -⟩ := body.covers t
    obtain ⟨hfb, hlb, tb⟩ := ws.tiles_token ta
    obtain rfl := tb.start_eq after
    refine (Derives.block body ws).nested_node tiles tb rfl ?_
    exact (ih t ta).widen (by omega) (by omega)

end Nested

end Grammar

open Grammar

theorem Node.span?_stmt {s : Stmt} {t : Span} (h : (Node.stmt s).span? = some t) :
    s.isAbsent = false ∧ s.span = t := by
  cases s with
  | absent => cases h
  | binding | stated => exact ⟨rfl, Option.some.inj h⟩

theorem Program.span?_of_ends {p : Program} {first last : Stmt} {s t : Span}
    (hfirst : p.stmts.head? = some first) (hlast : p.stmts.getLast? = some last)
    (hs : (Node.stmt first).span? = some s) (ht : (Node.stmt last).span? = some t) :
    p.span? = some ⟨s.start, t.stop⟩ := by
  obtain ⟨hpresent, rfl⟩ := Node.span?_stmt hs
  obtain ⟨hpresent', rfl⟩ := Node.span?_stmt ht
  simp only [Program.span?, hfirst, hlast, hpresent, hpresent', Bool.or_self, Bool.false_eq_true,
    ↓reduceIte]

/-- A program with statements stands around them like a node around its children. -/
theorem Nested.program {lo hi : Nat} {p : Program} (h : Nested lo hi (p.stmts.map Node.stmt))
    (hne : p.stmts ≠ []) : Nested lo hi [.program p] := by
  obtain ⟨first, hfirst⟩ := Option.ne_none_iff_exists'.mp (mt List.head?_eq_none_iff.mp hne)
  obtain ⟨last, hlast⟩ := Option.ne_none_iff_exists'.mp (mt List.getLast?_eq_none_iff.mp hne)
  have hfirst' : (p.stmts.map Node.stmt).head? = some (.stmt first) := by
    rw [List.head?_map, hfirst, Option.map_some]
  have hlast' : (p.stmts.map Node.stmt).getLast? = some (.stmt last) := by
    rw [List.getLast?_map, hlast, Option.map_some]
  obtain ⟨s, t, a, b, hs, ht, covers, ha, hb, tight⟩ := h.tighten hfirst' hlast'
  have hspan : (Node.program p).span? = some ⟨s.start, t.stop⟩ :=
    Program.span?_of_ends hfirst hlast hs ht
  exact .cons ha hspan covers tight (.nil hb)

/-- The statements of a program are nested in the source. -/
theorem nested_parse (o : Parse.Options) (source : Source) :
    Nested 0 source.length ((parse o source).tree.stmts.map Node.stmt) := by
  have derived := Parse.derives_stmts o (Cursor.start source).tokens
  have tiles := (Cursor.start source).tokens_tile
  obtain ⟨mid, after, -⟩ := derived.covers tiles
  have hle : mid ≤ source.length := by
    have hlimit := after.le
    by_cases hpos : 0 < (Cursor.start source).limit
    · exact Nat.le_trans hlimit (Cursor.limit_le hpos)
    · omega
  exact (derived.nested tiles after).widen (Nat.le_refl 0) hle

/-- In a program with statements every node has a span inside the source, its children stand inside it
one after another, and the nodes around any position are a path down from the program. -/
theorem parse_spans_nest {o : Parse.Options} {source : Source}
    (hne : (parse o source).tree.stmts ≠ []) :
    (∀ n ∈ (Node.program (parse o source).tree).nodes, ∃ s, n.span? = some s ∧
      0 ≤ s.start ∧ s.start ≤ s.stop ∧ s.stop < source.length ∧
      (∀ m ∈ n.children, ∃ t, m.span? = some t ∧ t.Inside s) ∧ n.children.Pairwise Node.Before) ∧
    ∀ offset,
      ((Node.program (parse o source).tree).around offset).IsChain (fun n m => m ∈ n.children) ∧
      ∀ n, ((Node.program (parse o source).tree).around offset).head? = some n →
        n = .program (parse o source).tree := by
  have nested := (nested_parse o source).program hne
  have hroots : [Node.program (parse o source).tree].flatMap Node.nodes =
      (Node.program (parse o source).tree).nodes := List.flatMap_singleton _ _
  constructor
  · intro n hn
    rw [← hroots] at hn
    obtain ⟨s, c, d, hs, hcov, hc, hd, inside⟩ := nested.mem hn
    obtain ⟨hlt, hstart, hstop⟩ := hcov
    refine ⟨s, hs, by omega, by omega, by omega, fun m hm => ?_, inside.pairwise_before⟩
    obtain ⟨t, e, f, ht, ⟨-, hstart', hstop'⟩, he, hf⟩ := inside.mem_roots hm
    exact ⟨t, ht, by omega, by omega⟩
  · intro offset
    obtain ⟨hchain, hhead⟩ := nested.path offset
    rw [hroots] at hchain hhead
    exact ⟨hchain, fun n hn => List.mem_singleton.mp (hhead n hn)⟩

theorem parse_spans_nest_block_before_paren :
    (parse .all ("\x7ba.b(1)\x7d (".toList.map .char)).tree.stmts ≠ [] ∧
      ((Node.program (parse .all ("\x7ba.b(1)\x7d (".toList.map .char)).tree).around 5).length = 6 ∧
      ((Node.program (parse .all ("\x7ba.b(1)\x7d (".toList.map .char)).tree).around 5).IsChain
        (fun n m => m ∈ n.children) := by
  have hne : (parse .all ("\x7ba.b(1)\x7d (".toList.map .char)).tree.stmts ≠ [] := by
    apply List.ne_nil_of_length_pos
    decide +kernel
  exact ⟨hne, by decide +kernel, ((parse_spans_nest hne).2 5).1⟩

end LetLang
