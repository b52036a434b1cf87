import LetLang.Proofs.Nested
import LetLang.Proofs.Split
import LetLang.Proofs.Spelling
import Mathlib.Algebra.Order.Group.Multiset
import Mathlib.Tactic.Abel

/-!
# Nothing is lost and nothing is made up

The leaves of a program are, in the order of a walk, the values among the tokens it was read from: the
names, the quoted texts, the truth values and the runs of digits. The other tokens are spaces, the
marks that the statements and expressions of the program are written with, each as often as it needs
them, and semicolons.

Both are followed along a derivation: the leaves in their order, with `items`, and the marks in any
order, as a permutation.
-/
namespace LetLang

open Grammar

/-! ## Values -/

/-- What a leaf of a tree says. -/
inductive Value where
  | name (text : Text)
  | number (n : Nat)
  | bool (b : Bool)
  | string (text : Text) (quote : Option SourceChar)

/-- A value and where it stands. -/
structure Item where
  value : Value
  span : Span

namespace Node

def isLeaf (n : Node) : Bool :=
  match n.kind? with
  | some .ident | some .number | some .bool | some .string => true
  | _ => false

/-- What a leaf says and where. A name that is missing says nothing. -/
def item? : Node → Option Item
  | .expr (.ident i) => some ⟨.name i.name, i.span⟩
  | .expr (.number n s) => some ⟨.number n.toNat, s⟩
  | .expr (.bool b s) => some ⟨.bool b, s⟩
  | .expr (.string text quote s) => some ⟨.string text quote, s⟩
  | _ => none

end Node

/-- What the leaves of some trees say, in the order of a walk. -/
def leavesOf (ns : List Node) : List (Option Item) :=
  ((ns.flatMap Node.nodes).filter Node.isLeaf).map Node.item?

namespace Lexeme

/-- A lexeme that is a value or a part of one. -/
def isValue : Lexeme → Bool
  | .ident _ | .digit _ | .quoted _ _ | .keyword .trueKw | .keyword .falseKw => true
  | _ => false

def digit? : Lexeme → Option Digit
  | .digit d => some d
  | _ => none

end Lexeme

def Token.isDigit (t : Token) : Bool :=
  t.lexeme.digit?.isSome

/-- The values of a list of tokens, in order. Digits that stand together are one number. -/
def items : List Token → List Item
  | [] => []
  | t :: ts =>
    match t.lexeme with
    | .ident name => ⟨.name (Text.ofChars name), t.span⟩ :: items ts
    | .keyword .trueKw => ⟨.bool true, t.span⟩ :: items ts
    | .keyword .falseKw => ⟨.bool false, t.span⟩ :: items ts
    | .quoted q text => ⟨.string (Text.ofChars text) (some q.sourceChar), t.span⟩ :: items ts
    | .digit d =>
      let run := ts.takeWhile Token.isDigit
      ⟨.number (Decimal.value 0 (d :: run.filterMap fun u => u.lexeme.digit?)),
        ⟨t.first, (run.getLastD t).last⟩⟩ :: items (ts.dropWhile Token.isDigit)
    | _ => items ts
termination_by ts => ts.length
decreasing_by
  all_goals simp only [List.length_cons]
  all_goals have := (List.dropWhile_sublist Token.isDigit (l := ts)).length_le
  all_goals omega

/-! ### Leaves of trees -/

theorem leavesOf_append (ms ns : List Node) : leavesOf (ms ++ ns) = leavesOf ms ++ leavesOf ns := by
  simp only [leavesOf, List.flatMap_append, List.filter_append, List.map_append]

theorem leavesOf_pair (m n : Node) : leavesOf [m, n] = leavesOf [m] ++ leavesOf [n] :=
  leavesOf_append [m] [n]

/-- The leaves of a tree that is no leaf itself are those of its children. -/
theorem leavesOf_node {n : Node} (inner : n.isLeaf = false) : leavesOf [n] = leavesOf n.children := by
  by_cases present : n.kind? = none
  · rcases Node.kind?_eq_none_iff.mp present with rfl | rfl
    all_goals rfl
  · rw [leavesOf, List.flatMap_singleton, Node.nodes_eq present,
      List.filter_cons_of_neg (by simp [inner])]
    rfl

theorem leavesOf_leaf {n : Node} {i : Item} (h : n.item? = some i) : leavesOf [n] = [some i] := by
  unfold Node.item? at h
  split at h
  all_goals cases h
  all_goals rfl

/-! ### Values among tokens -/

theorem items_nil : items [] = [] := by
  rw [items]

theorem items_of_noValue {t : Token} (h : t.lexeme.isValue = false) (ts : List Token) :
    items (t :: ts) = items ts := by
  rw [items.eq_def]
  obtain ⟨x, first, last⟩ := t
  cases x with
  | keyword k => cases k <;> first | rfl | cases h
  | bracket | space | punct | operator => rfl
  | _ => cases h

theorem isDigit_head {rest : List Token} (maximal : ¬ DigitFirst rest) {t : Token}
    (h : rest.head? = some t) : t.isDigit = false := by
  obtain ⟨x, first, last⟩ := t
  cases x with
  | digit d => exact absurd ⟨d, by rw [headLexeme, h]; rfl⟩ maximal
  | _ => rfl

theorem items_of_digits {t : Token} {run rest : List Token} {ds : List Digit}
    (digits : (t :: run).map Token.lexeme = ds.map Lexeme.digit) (maximal : ¬ DigitFirst rest) :
    items (t :: (run ++ rest)) =
      ⟨.number (Decimal.value 0 ds), ⟨t.first, (run.getLastD t).last⟩⟩ :: items rest := by
  cases ds with
  | nil => cases digits
  | cons d ds =>
    obtain ⟨hd, hrun⟩ := List.cons.inj digits
    have hall : ∀ u ∈ run, u.isDigit = true := by
      intro u hu
      have hmem : u.lexeme ∈ ds.map Lexeme.digit := hrun ▸ List.mem_map_of_mem hu
      obtain ⟨d', -, hd'⟩ := List.mem_map.mp hmem
      rw [Token.isDigit, ← hd']
      rfl
    have htake : (run ++ rest).takeWhile Token.isDigit = run :=
      takeWhile_of_head hall fun _ => isDigit_head maximal
    have hdrop : (run ++ rest).dropWhile Token.isDigit = rest := by
      have h := List.takeWhile_append_dropWhile (p := Token.isDigit) (l := run ++ rest)
      rw [htake] at h
      exact List.append_cancel_left h
    have hds : (run.filterMap fun u => u.lexeme.digit?) = ds := by
      calc (run.filterMap fun u => u.lexeme.digit?)
          = (run.map Token.lexeme).filterMap Lexeme.digit? := by
            rw [List.filterMap_map]
            rfl
        _ = (ds.map Lexeme.digit).filterMap Lexeme.digit? := by rw [hrun]
        _ = ds.filterMap some := List.filterMap_map
        _ = ds := List.filterMap_some
    rw [items]
    simp only [hd, htake, hdrop, hds]

theorem Grammar.Spaces.items {ts rest : List Token} (ws : Spaces ts rest) :
    items ts = items rest := by
  induction ws with
  | none => rfl
  | more _ ih => rw [items_of_noValue rfl, ih]

theorem Grammar.Ending.items {stop stop' : Int} {ts rest : List Token}
    (ending : Ending stop ts stop' rest) : items ts = items rest := by
  cases ending with
  | none => rfl
  | semicolon ws => rw [ws.items, items_of_noValue rfl]

/-- The leaves of a phrase are the values of its tokens. -/
theorem Grammar.Derives.leaves {o : Parse.Options} {φ : Phrase} {ts rest : List Token}
    (h : Derives o φ ts rest) : leavesOf φ.roots ++ (items rest).map some = (items ts).map some := by
  induction h with
  | noStmt => rfl
  | moreStmts ws _ _ ihs ihss =>
    rw [ws.items, ← ihs, ← ihss, ← List.append_assoc, ← leavesOf_append]
    rfl
  | letStmt _ ih => exact ih
  | exprStmt _ ih => exact ih
  | bare _ ih => exact ih
  | target _ ih => exact ih
  | numeral _ ih => exact ih
  | braced _ _ ih => exact ih
  | binding ws ws₁ ws₂ _ ending ih =>
    rw [items_of_noValue rfl, ws.items, items, ws₁.items, items_of_noValue rfl, ws₂.items,
      List.map_cons, ← ih, ending.items, Phrase.roots, leavesOf_node rfl, Node.children, leavesOf_pair]
    rfl
  | stated _ ending ih =>
    rw [Phrase.roots, leavesOf_node rfl, ← ending.items]
    exact ih
  | call _ ws ws₁ _ ws₂ ihc ihi =>
    rw [ws₂.items, items_of_noValue rfl] at ihi
    rw [ws.items, items_of_noValue rfl, ws₁.items, ← ihi] at ihc
    rw [Phrase.roots, leavesOf_node rfl, Node.children, leavesOf_pair, List.append_assoc]
    exact ihc
  | field _ _ ih =>
    rw [items_of_noValue rfl, items] at ih
    rw [Phrase.roots, leavesOf_node rfl, Node.children, leavesOf_pair, List.append_assoc]
    exact ih
  | ident | trueLit | falseLit | quoted => rw [items]; rfl
  | number digits maximal fits =>
    -- the value fits into 32 bits, so the literal has lost nothing of it
    rw [items_of_digits digits maximal, Phrase.roots, leavesOf_leaf rfl,
      UInt32.toNat_ofNat_of_lt' (Nat.lt_succ_of_le fits)]
    rfl
  | block _ ws ih =>
    rw [ws.items, items_of_noValue rfl] at ih
    rw [Phrase.roots, leavesOf_node rfl, items_of_noValue rfl]
    exact ih

/-! ## Marks -/

/-- A lexeme that is neither a space nor a part of a value. -/
def Lexeme.isMark (x : Lexeme) : Bool :=
  !x.isSpace && !x.isValue

/-- The marks among some tokens, in no order. -/
def marks (ts : List Token) : Multiset Lexeme :=
  ((ts.map Token.lexeme).filter Lexeme.isMark : List Lexeme)

namespace Node

/-- The marks that a node of the kind is written with, next to its children. -/
def Kind.marks : Kind → Multiset Lexeme
  | .binding => {.keyword .letKw} + {.operator .equal}
  | .call => {.bracket ⟨.paren, true⟩} + {.bracket ⟨.paren, false⟩}
  | .access => {.punct .fullStop}
  | .block => {.bracket ⟨.curly, true⟩} + {.bracket ⟨.curly, false⟩}
  | _ => 0

def marks (n : Node) : Multiset Lexeme :=
  n.kind?.elim 0 Kind.marks

def hasKind (k : Kind) (n : Node) : Bool :=
  decide (n.kind? = some k)

def isStmt (n : Node) : Bool :=
  n.hasKind .binding || n.hasKind .stated

end Node

/-- The marks that some trees are written with. -/
def marksOf (ns : List Node) : Multiset Lexeme :=
  ((ns.flatMap Node.nodes).map Node.marks).sum

/-- The number of statements in some trees, at all levels. -/
def stmtCount (ns : List Node) : Nat :=
  (ns.flatMap Node.nodes).countP Node.isStmt

/-- The first marks are those of the trees, semicolons, no more of these than there are statements, and
the second marks. -/
def Marked (ns : List Node) (m m' : Multiset Lexeme) : Prop :=
  ∃ k ≤ stmtCount ns, m = marksOf ns + Multiset.replicate k (.punct .semicolon) + m'

theorem marks_cons {t : Token} (h : t.lexeme.isMark = true) (ts : List Token) :
    marks (t :: ts) = {t.lexeme} + marks ts := by
  rw [marks, List.map_cons, List.filter_cons_of_pos h]
  rfl

theorem marks_skip {t : Token} (h : t.lexeme.isMark = false) (ts : List Token) :
    marks (t :: ts) = marks ts := by
  rw [marks, List.map_cons, List.filter_cons_of_neg (by simp [h])]
  rfl

theorem marks_digits {run : List Token} {ds : List Digit}
    (digits : run.map Token.lexeme = ds.map Lexeme.digit) (rest : List Token) :
    marks (run ++ rest) = marks rest := by
  have hrun : (ds.map Lexeme.digit).filter Lexeme.isMark = [] := by
    refine List.filter_eq_nil_iff.mpr fun x hx => ?_
    obtain ⟨d, -, rfl⟩ := List.mem_map.mp hx
    exact Bool.false_ne_true
  rw [marks, List.map_append, List.filter_append, digits, hrun]
  rfl

theorem marksOf_append (ms ns : List Node) : marksOf (ms ++ ns) = marksOf ms + marksOf ns := by
  rw [marksOf, List.flatMap_append, List.map_append, List.sum_append]
  rfl

theorem marksOf_node (n : Node) : marksOf [n] = n.marks + marksOf n.children := by
  by_cases present : n.kind? = none
  · rcases Node.kind?_eq_none_iff.mp present with rfl | rfl
    all_goals rfl
  · rw [marksOf, List.flatMap_singleton, Node.nodes_eq present, List.map_cons, List.sum_cons]
    rfl

theorem stmtCount_append (ms ns : List Node) : stmtCount (ms ++ ns) = stmtCount ms + stmtCount ns := by
  rw [stmtCount, List.flatMap_append, List.countP_append]
  rfl

theorem stmtCount_node (n : Node) : stmtCount [n] = stmtCount n.children + n.isStmt.toNat := by
  by_cases present : n.kind? = none
  · rcases Node.kind?_eq_none_iff.mp present with rfl | rfl
    all_goals rfl
  · rw [stmtCount, List.flatMap_singleton, Node.nodes_eq present, List.countP_cons]
    cases n.isStmt <;> rfl

theorem Grammar.Spaces.marks {ts rest : List Token} (ws : Spaces ts rest) :
    marks ts = marks rest := by
  induction ws with
  | none => rfl
  | more _ ih => exact ih

/-- The end of a statement is at most one semicolon. -/
theorem Grammar.Ending.marks {stop stop' : Int} {ts rest : List Token}
    (ending : Ending stop ts stop' rest) :
    ∃ k ≤ 1, marks ts = Multiset.replicate k (.punct .semicolon) + marks rest := by
  cases ending with
  | none => exact ⟨0, by omega, by simp⟩
  | semicolon ws => exact ⟨1, by omega, by rw [ws.marks, marks_cons rfl, Multiset.replicate_one]⟩

namespace Marked

variable {ms ns : List Node} {n : Node} {m m₁ m' : Multiset Lexeme}

theorem nil (m : Multiset Lexeme) : Marked [] m m :=
  ⟨0, Nat.zero_le _, by simp [marksOf]⟩

theorem append (h : Marked ms m m₁) (h' : Marked ns m₁ m') : Marked (ms ++ ns) m m' := by
  obtain ⟨k, hk, rfl⟩ := h
  obtain ⟨k', hk', rfl⟩ := h'
  refine ⟨k + k', ?_, ?_⟩
  · rw [stmtCount_append]
    exact Nat.add_le_add hk hk'
  · rw [marksOf_append, Multiset.replicate_add]
    abel

/-- Marks can be put in front. -/
theorem add (x : Multiset Lexeme) (h : Marked ns m m') : Marked ns (x + m) (x + m') := by
  obtain ⟨k, hk, rfl⟩ := h
  exact ⟨k, hk, by abel⟩

/-- A node takes the marks that its children leave. -/
theorem node (h : Marked n.children m m₁) (own : m₁ = n.marks + m') : Marked [n] m m' := by
  obtain ⟨k, hk, rfl⟩ := h
  refine ⟨k, ?_, ?_⟩
  · rw [stmtCount_node]
    exact Nat.le_add_right_of_le hk
  · rw [marksOf_node, own]
    abel

/-- A statement takes a semicolon as well. -/
theorem stmt (h : Marked n.children m m₁) (hn : n.isStmt = true)
    (own : ∃ k ≤ 1, m₁ = n.marks + (Multiset.replicate k (.punct .semicolon) + m')) :
    Marked [n] m m' := by
  obtain ⟨k, hk, rfl⟩ := h
  obtain ⟨k', hk', rfl⟩ := own
  refine ⟨k + k', ?_, ?_⟩
  · rw [stmtCount_node, hn]
    exact Nat.add_le_add hk hk'
  · rw [marksOf_node, Multiset.replicate_add]
    abel

theorem leaf (m : Multiset Lexeme) {e : Expr} (childless : (Node.expr e).children = [])
    (unmarked : (Node.expr e).marks = 0) : Marked [.expr e] m m := by
  have below : Marked (Node.expr e).children m m := by
    rw [childless]
    exact nil m
  exact below.node (by rw [unmarked, zero_add])

end Marked

/-- The marks of a phrase are those of its trees. -/
theorem Grammar.Derives.marked {o : Parse.Options} {φ : Phrase} {ts rest : List Token}
    (h : Derives o φ ts rest) : Marked φ.roots (marks ts) (marks rest) := by
  induction h with
  | noStmt => exact .nil _
  | moreStmts ws _ _ ihs ihss =>
    rw [ws.marks]
    exact ihs.append ihss
  | letStmt _ ih => exact ih
  | exprStmt _ ih => exact ih
  | bare _ ih => exact ih
  | target _ ih => exact ih
  | numeral _ ih => exact ih
  | braced _ _ ih => exact ih
  | binding ws ws₁ ws₂ _ ending ih =>
    obtain ⟨k, hk, hend⟩ := ending.marks
    rw [marks_cons rfl, ws.marks, marks_skip rfl, ws₁.marks, marks_cons rfl, ws₂.marks, ← add_assoc]
    refine Marked.stmt ((Marked.leaf _ rfl rfl).append (ih.add _)) rfl ⟨k, hk, ?_⟩
    rw [hend]
    rfl
  | stated _ ending ih =>
    obtain ⟨k, hk, hend⟩ := ending.marks
    refine Marked.stmt ih rfl ⟨k, hk, ?_⟩
    rw [hend]
    exact (zero_add _).symm
  | call _ ws ws₁ _ ws₂ ihc ihi =>
    rw [ws.marks, marks_cons rfl, ws₁.marks] at ihc
    rw [ws₂.marks, marks_cons rfl] at ihi
    exact Marked.node (ihc.append (ihi.add _)) (add_assoc _ _ _).symm
  | field _ _ ih =>
    rw [marks_cons rfl, marks_skip rfl] at ih
    exact Marked.node (ih.append (.leaf _ rfl rfl)) rfl
  | ident | trueLit | falseLit | quoted =>
    rw [marks_skip rfl]
    exact .leaf _ rfl rfl
  | number digits _ _ =>
    rw [← List.cons_append, marks_digits digits]
    exact .leaf _ rfl rfl
  | block _ ws ih =>
    rw [ws.marks, marks_cons rfl] at ih
    rw [marks_cons rfl]
    exact Marked.node (ih.add _) (add_assoc _ _ _).symm

/-! ## The tokens of a program -/

/-- The number of nodes of a kind in a tree. -/
def Node.count (k : Kind) (n : Node) : Nat :=
  n.nodes.countP (hasKind k)

/-- The program and the tokens account for each other: the leaves of the program are the values among
the tokens, and all other tokens are spaces, the marks of its nodes, and semicolons. -/
structure Accounts (p : Program) (ts : List Token) : Prop where
  leaves : leavesOf [.program p] = (items ts).map some
  others : ∀ t ∈ ts, t.lexeme.isValue = false → t.lexeme.isSpace = false →
    t.lexeme ∈ [Lexeme.punct .semicolon, .keyword .letKw, .operator .equal, .punct .fullStop,
      .bracket ⟨.paren, true⟩, .bracket ⟨.paren, false⟩, .bracket ⟨.curly, true⟩,
      .bracket ⟨.curly, false⟩]
  lets : (ts.map Token.lexeme).count (.keyword .letKw) = (Node.program p).count .binding
  equals : (ts.map Token.lexeme).count (.operator .equal) = (Node.program p).count .binding
  dots : (ts.map Token.lexeme).count (.punct .fullStop) = (Node.program p).count .access
  parens (isOpen : Bool) :
    (ts.map Token.lexeme).count (.bracket ⟨.paren, isOpen⟩) = (Node.program p).count .call
  braces (isOpen : Bool) :
    (ts.map Token.lexeme).count (.bracket ⟨.curly, isOpen⟩) = (Node.program p).count .block
  semicolons : (ts.map Token.lexeme).count (.punct .semicolon) ≤ stmtCount [.program p]

theorem count_marks {x : Lexeme} (hx : x.isMark = true) (ts : List Token) :
    (marks ts).count x = (ts.map Token.lexeme).count x := by
  rw [marks, Multiset.coe_count, List.count_filter hx]

theorem Node.Kind.mem_marks {k : Kind} {x : Lexeme} (h : x ∈ k.marks) :
    x ∈ [Lexeme.keyword .letKw, .operator .equal, .punct .fullStop, .bracket ⟨.paren, true⟩,
      .bracket ⟨.paren, false⟩, .bracket ⟨.curly, true⟩, .bracket ⟨.curly, false⟩] := by
  cases k with
  | binding | call | block =>
    rcases Multiset.mem_add.mp h with h | h
    all_goals rw [Multiset.mem_singleton.mp h]; decide
  | access => rw [Multiset.mem_singleton.mp h]; decide
  | _ => exact absurd h (Multiset.notMem_zero x)

theorem mem_marksOf {x : Lexeme} {ns : List Node} (h : x ∈ marksOf ns) :
    ∃ k : Node.Kind, x ∈ k.marks := by
  unfold marksOf at h
  generalize ns.flatMap Node.nodes = ms at h
  induction ms with
  | nil => exact absurd h (Multiset.notMem_zero x)
  | cons m ms ih =>
    rw [List.map_cons, List.sum_cons, Multiset.mem_add, Node.marks] at h
    rcases h with h | h
    · generalize m.kind? = found at h
      cases found with
      | none => exact absurd h (Multiset.notMem_zero x)
      | some k => exact ⟨k, h⟩
    · exact ih h

/-- A mark that one kind of node is written with once, and no other kind at all, is there as often as
there are such nodes. -/
theorem count_marksOf {k : Node.Kind} {x : Lexeme}
    (h : ∀ k', (Node.Kind.marks k').count x = (decide (k' = k)).toNat) (n : Node) :
    (marksOf [n]).count x = n.count k := by
  have hmarks (m : Node) : m.marks.count x = (m.hasKind k).toNat := by
    rw [Node.marks, Node.hasKind]
    cases m.kind? with
    | none => simp
    | some k' => simpa using h k'
  rw [marksOf, List.flatMap_singleton, Node.count]
  induction n.nodes with
  | nil => rfl
  | cons m ms ih =>
    rw [List.map_cons, List.sum_cons, Multiset.count_add, ih, hmarks, List.countP_cons, Nat.add_comm]
    cases m.hasKind k <;> rfl

theorem semicolon_notMem_marksOf (ns : List Node) : Lexeme.punct .semicolon ∉ marksOf ns := by
  intro h
  obtain ⟨k, hk⟩ := mem_marksOf h
  exact absurd (Node.Kind.mem_marks hk) (by decide)

/-- The tokens of a tree have the marks of one kind of node as often as the tree has such nodes. -/
theorem Marked.count {n : Node} {ts : List Token} (h : Marked [n] (marks ts) 0) {k : Node.Kind}
    {x : Lexeme} (hx : x.isMark = true) (hne : x ≠ .punct .semicolon)
    (hk : ∀ k', (Node.Kind.marks k').count x = (decide (k' = k)).toNat) :
    (ts.map Token.lexeme).count x = n.count k := by
  obtain ⟨j, -, hmarks⟩ := h
  rw [← count_marks hx, hmarks, add_zero, Multiset.count_add, count_marksOf hk,
    Multiset.count_replicate, if_neg hne.symm, Nat.add_zero]

theorem Marked.semicolons {ns : List Node} {ts : List Token} (h : Marked ns (marks ts) 0) :
    (ts.map Token.lexeme).count (.punct .semicolon) ≤ stmtCount ns := by
  obtain ⟨k, hk, hmarks⟩ := h
  rw [← count_marks rfl, hmarks, add_zero, Multiset.count_add, Multiset.count_replicate_self,
    Multiset.count_eq_zero_of_notMem (semicolon_notMem_marksOf ns), Nat.zero_add]
  exact hk

theorem Marked.mem {ns : List Node} {ts : List Token} (h : Marked ns (marks ts) 0) {t : Token}
    (ht : t ∈ ts) (hvalue : t.lexeme.isValue = false) (hspace : t.lexeme.isSpace = false) :
    t.lexeme = .punct .semicolon ∨ ∃ k : Node.Kind, t.lexeme ∈ k.marks := by
  obtain ⟨k, -, hmarks⟩ := h
  have hmark : t.lexeme.isMark = true := by
    rw [Lexeme.isMark, hvalue, hspace]
    rfl
  have hmem : t.lexeme ∈ marks ts := List.mem_filter.mpr ⟨List.mem_map_of_mem ht, hmark⟩
  rw [hmarks, add_zero, Multiset.mem_add] at hmem
  rcases hmem with hmem | hmem
  · exact .inr (mem_marksOf hmem)
  · exact .inl (Multiset.eq_of_mem_replicate hmem)

section Program

variable {o : Parse.Options} {p : Program} {ts : List Token}

theorem leaves_of_isProgram (h : IsProgram o p ts) :
    leavesOf [.program p] = (items ts).map some := by
  obtain ⟨left, derived, ws⟩ := h
  have hleaves := derived.leaves
  rw [ws.items, items_nil, List.map_nil, List.append_nil] at hleaves
  rw [leavesOf_node rfl]
  exact hleaves

theorem marked_of_isProgram (h : IsProgram o p ts) : Marked [.program p] (marks ts) 0 := by
  obtain ⟨left, derived, ws⟩ := h
  have below : Marked (Node.program p).children (marks ts) (marks left) := derived.marked
  apply below.node
  rw [ws.marks]
  rfl

theorem accounts_of_isProgram (h : IsProgram o p ts) : Accounts p ts := by
  have marked := marked_of_isProgram h
  constructor
  case leaves => exact leaves_of_isProgram h
  case others =>
    intro t ht hvalue hspace
    rcases marked.mem ht hvalue hspace with hsemicolon | ⟨k, hk⟩
    · rw [hsemicolon]
      decide
    · exact List.mem_cons_of_mem _ (Node.Kind.mem_marks hk)
  case lets => exact marked.count rfl (by decide) (by intro k; cases k <;> decide)
  case equals => exact marked.count rfl (by decide) (by intro k; cases k <;> decide)
  case dots => exact marked.count rfl (by decide) (by intro k; cases k <;> decide)
  case parens =>
    intro isOpen
    exact marked.count rfl nofun (by intro k; cases k <;> cases isOpen <;> decide)
  case braces =>
    intro isOpen
    exact marked.count rfl nofun (by intro k; cases k <;> cases isOpen <;> decide)
  case semicolons => exact marked.semicolons

end Program

/-- Whatever is read as a program accounts for the tokens up to where the reading stopped. It stops only
where neither a space nor a statement begins. -/
theorem readProgram_accounts (o : Parse.Options) (c : Cursor) :
    ∃ ts, c.Run ts (Parse.readProgram o c).cursor ∧ Accounts (Parse.readProgram o c).result ts ∧
      (∀ x, headLexeme (Parse.readProgram o c).cursor.tokens = some x → x.isSpace = false) ∧
      (Parse.readStmt o (Parse.readProgram o c).cursor).result = none := by
  obtain ⟨ts, run, program, nospace, unmatched⟩ := readProgram_stops o c
  exact ⟨ts, run, accounts_of_isProgram program, nospace,
    readAt_of_none (f := fun ts => (Parse.stmt o ts).outcome) unmatched⟩

end LetLang
