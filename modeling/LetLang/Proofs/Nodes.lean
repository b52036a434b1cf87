import LetLang.Tree.Visit
import LetLang.Proofs.MapSpan

/-!
# The nodes of a tree

The children of a node are the parts directly below it, and the nodes of a tree are what a walk lists
that leaves nothing out: a node, followed by the nodes of its children one after another. Changing the
spans of a tree changes its nodes one by one and keeps their order.
-/
namespace LetLang

namespace Node

/-- The parts directly below a node, in source order. -/
def children : Node → List Node
  | .program p => p.stmts.map .stmt
  | .stmt (.binding name value _) => [Ident.node name, .expr value]
  | .stmt (.stated value _) => [.expr value]
  | .expr (.call called input _) => [.expr called, .expr input]
  | .expr (.access target field _) => [.expr target, Ident.node field]
  | .expr (.block ss _) => ss.map .stmt
  | _ => []

/-- A node and all nodes below it, in the order of a walk. -/
def nodes (n : Node) : List Node :=
  n.walk fun _ => true

end Node

/-! ## A walk goes through the children -/

mutual

theorem Expr.walk_eq_nodes (e : Expr) (tail : List Node) :
    e.walk (fun _ => true) tail = (Node.expr e).nodes ++ tail := by
  cases e with
  | absent | ident | number | bool | string => rfl
  | call called input span =>
    simp only [Node.nodes, Node.walk, Expr.walk, ↓reduceIte, List.cons_append, List.cons.injEq,
      true_and]
    rw [input.walk_eq_nodes tail, called.walk_eq_nodes, input.walk_eq_nodes [], called.walk_eq_nodes]
    simp only [List.append_nil, List.append_assoc]
  | access target field span =>
    simp only [Node.nodes, Node.walk, Expr.walk, ↓reduceIte, List.cons_append, List.cons.injEq,
      true_and]
    rw [target.walk_eq_nodes, target.walk_eq_nodes, List.append_assoc]
    rfl
  | block ss span =>
    simp only [Node.nodes, Node.walk, Expr.walk, ↓reduceIte, List.cons_append, List.cons.injEq,
      true_and]
    rw [Stmt.walkAll_eq_nodes ss tail, Stmt.walkAll_eq_nodes ss [], List.append_nil]

theorem Stmt.walk_eq_nodes (s : Stmt) (tail : List Node) :
    s.walk (fun _ => true) tail = (Node.stmt s).nodes ++ tail := by
  cases s with
  | absent => rfl
  | binding name value span =>
    simp only [Node.nodes, Node.walk, Stmt.walk, ↓reduceIte, List.cons_append, List.cons.injEq,
      true_and]
    rw [value.walk_eq_nodes tail, value.walk_eq_nodes [], List.append_nil]
  | stated value span =>
    simp only [Node.nodes, Node.walk, Stmt.walk, ↓reduceIte, List.cons_append, List.cons.injEq,
      true_and]
    rw [value.walk_eq_nodes tail, value.walk_eq_nodes [], List.append_nil]

theorem Stmt.walkAll_eq_nodes (ss : List Stmt) (tail : List Node) :
    Stmt.walkAll (fun _ => true) ss tail = (ss.map Node.stmt).flatMap Node.nodes ++ tail := by
  cases ss with
  | nil => rfl
  | cons s ss =>
    rw [Stmt.walkAll, Stmt.walkAll_eq_nodes ss tail, s.walk_eq_nodes, List.map_cons,
      List.flatMap_cons, List.append_assoc]

end

namespace Node

/-- A tree is its root and the trees below it. -/
theorem nodes_eq {n : Node} (present : n.kind? ≠ none) : n.nodes = n :: n.children.flatMap nodes := by
  cases n with
  | program p =>
    simp only [nodes, walk, ↓reduceIte, Stmt.walkAll_eq_nodes, List.append_nil]
    rfl
  | stmt s =>
    cases s with
    | absent => exact absurd rfl present
    | binding name value span =>
      have hname : (Ident.node name).nodes = [Ident.node name] := by cases name <;> rfl
      change Stmt.walk _ _ [] = _
      rw [Stmt.walk, Expr.walk_eq_nodes, List.append_nil, children, List.flatMap_cons, hname,
        List.flatMap_singleton]
      rfl
    | stated value span =>
      change Stmt.walk _ _ [] = _
      rw [Stmt.walk, Expr.walk_eq_nodes, List.append_nil, children, List.flatMap_singleton]
      rfl
  | expr e =>
    cases e with
    | absent => exact absurd rfl present
    | ident | number | bool | string => rfl
    | call called input span =>
      change Expr.walk _ _ [] = _
      rw [Expr.walk, Expr.walk_eq_nodes, Expr.walk_eq_nodes, List.append_nil, children,
        List.flatMap_cons, List.flatMap_singleton]
      rfl
    | access target field span =>
      have hfield : (Ident.node field).nodes = [Ident.node field] := by cases field <;> rfl
      change Expr.walk _ _ [] = _
      rw [Expr.walk, Expr.walk_eq_nodes, children, List.flatMap_cons, List.flatMap_singleton, hfield]
      rfl
    | block ss span =>
      change Expr.walk _ _ [] = _
      rw [Expr.walk, Stmt.walkAll_eq_nodes, List.append_nil]
      rfl
  | missingName | foreign => rfl

theorem kind?_eq_none_iff {n : Node} : n.kind? = none ↔ n = .stmt .absent ∨ n = .expr .absent := by
  cases n with
  | stmt s => cases s <;> simp [kind?]
  | expr e => cases e <;> simp [kind?]
  | _ => simp [kind?]

/-- A node of a tree is the root or stands below it. -/
theorem mem_nodes {m n : Node} (h : m ∈ n.nodes) : m = n ∨ m ∈ n.children.flatMap nodes := by
  by_cases present : n.kind? = none
  · rcases kind?_eq_none_iff.mp present with rfl | rfl
    all_goals cases h
  · rw [nodes_eq present] at h
    exact List.mem_cons.mp h

theorem kind?_of_span? {n : Node} {s : Span} (h : n.span? = some s) : n.kind? ≠ none := by
  intro habsent
  rcases kind?_eq_none_iff.mp habsent with rfl | rfl
  all_goals cases h

end Node

/-! ## Induction along the children -/

theorem sizeOf_identNode_le (name : Option Ident) : sizeOf (Ident.node name) ≤ 1 + sizeOf name := by
  cases name with
  | none => simp [Ident.node]
  | some i => simp [Ident.node]

theorem sizeOf_stmtNode_lt (ss : List Stmt) {m : Node} (h : m ∈ ss.map Node.stmt) :
    sizeOf m < 1 + sizeOf ss := by
  obtain ⟨s, hs, rfl⟩ := List.mem_map.mp h
  have hlt := List.sizeOf_lt_of_mem hs
  simp only [Node.stmt.sizeOf_spec]
  omega

theorem Node.sizeOf_child_lt {n m : Node} (h : m ∈ n.children) : sizeOf m < sizeOf n := by
  cases n with
  | program p =>
    have hlt := sizeOf_stmtNode_lt p.stmts h
    cases p
    simp only [Node.program.sizeOf_spec, Program.mk.sizeOf_spec] at hlt ⊢
    omega
  | stmt s =>
    cases s with
    | absent => cases h
    | binding name value span =>
      have hname := sizeOf_identNode_le name
      simp only [children, List.mem_cons, List.not_mem_nil, or_false] at h
      rcases h with rfl | rfl
      all_goals simp; omega
    | stated value span =>
      rw [List.mem_singleton.mp h]
      simp
      omega
  | expr e =>
    cases e with
    | absent | ident | number | bool | string => cases h
    | call called input span =>
      simp only [children, List.mem_cons, List.not_mem_nil, or_false] at h
      rcases h with rfl | rfl
      all_goals simp; omega
    | access target field span =>
      have hfield := sizeOf_identNode_le field
      simp only [children, List.mem_cons, List.not_mem_nil, or_false] at h
      rcases h with rfl | rfl
      all_goals simp; omega
    | block ss span =>
      have hlt := sizeOf_stmtNode_lt ss h
      simp
      omega
  | missingName | foreign => cases h

/-- What holds of a node as soon as it holds of its children holds of every node. -/
theorem Node.of_children {motive : Node → Prop}
    (step : ∀ n : Node, (∀ m ∈ n.children, motive m) → motive n) (n : Node) : motive n :=
  step n fun m _ => Node.of_children step m
termination_by sizeOf n
decreasing_by exact Node.sizeOf_child_lt ‹_›

theorem Node.kind?_of_child {n m : Node} (h : m ∈ n.children) : n.kind? ≠ none := by
  intro habsent
  rcases kind?_eq_none_iff.mp habsent with rfl | rfl
  all_goals cases h

theorem Node.mem_nodes_self {n : Node} (present : n.kind? ≠ none) : n ∈ n.nodes := by
  rw [nodes_eq present]
  exact List.mem_cons_self

theorem Node.kind?_of_mem_nodes {n m : Node} (h : m ∈ n.nodes) : m.kind? ≠ none := by
  induction n using Node.of_children with
  | step n ih =>
    by_cases present : n.kind? = none
    · rcases kind?_eq_none_iff.mp present with rfl | rfl
      all_goals cases h
    · rcases mem_nodes h with rfl | h
      · exact present
      · obtain ⟨k, hk, hmk⟩ := List.mem_flatMap.mp h
        exact ih k hk hmk

theorem Node.nodes_subset_of_child {n m : Node} (h : m ∈ n.children) : m.nodes ⊆ n.nodes := by
  intro k hk
  rw [nodes_eq (kind?_of_child h)]
  exact List.mem_cons_of_mem n (List.mem_flatMap.mpr ⟨m, h, hk⟩)

/-- What is handed down from each node to its children holds of every node of a tree if it holds of the
root. -/
theorem Node.forall_nodes {motive : Node → Prop}
    (step : ∀ m, motive m → ∀ k ∈ m.children, motive k) (n : Node) (root : motive n) :
    ∀ m ∈ n.nodes, motive m := by
  induction n using Node.of_children with
  | step n ih =>
    intro m hm
    rcases mem_nodes hm with rfl | hm
    · exact root
    · obtain ⟨k, hk, hmk⟩ := List.mem_flatMap.mp hm
      exact ih k hk (step n root k hk) m hmk

/-- The children of a node of a tree are nodes of the tree unless they are absent. -/
theorem Node.child_mem_nodes {n m k : Node} (hm : m ∈ n.nodes) (hk : k ∈ m.children)
    (present : k.kind? ≠ none) : k ∈ n.nodes := by
  have hsubset := forall_nodes (motive := fun m => m.nodes ⊆ n.nodes)
    (fun m h k hk => List.Subset.trans (nodes_subset_of_child hk) h) n (List.Subset.refl _) m hm
  exact hsubset (nodes_subset_of_child hk (mem_nodes_self present))

/-- Every node of a tree but the root is the child of one. -/
theorem Node.exists_parent {n k : Node} (h : k ∈ n.nodes) : k = n ∨ ∃ m ∈ n.nodes, k ∈ m.children := by
  induction n using Node.of_children with
  | step n ih =>
    rcases mem_nodes h with rfl | h
    · exact .inl rfl
    · obtain ⟨c, hc, hkc⟩ := List.mem_flatMap.mp h
      rcases ih c hc hkc with rfl | ⟨m, hm, hk⟩
      · exact .inr ⟨n, mem_nodes_self (kind?_of_child hc), hc⟩
      · exact .inr ⟨m, nodes_subset_of_child hc hm, hk⟩

/-- A program stands at the root only. -/
theorem Node.program_not_mem_children (n : Node) (p : Program) : .program p ∉ n.children := by
  have hname (name : Option Ident) : Node.program p ≠ Ident.node name := by
    cases name <;> exact nofun
  cases n with
  | stmt s => cases s <;> simp [children, hname]
  | expr e => cases e <;> simp [children, hname]
  | program | missingName | foreign => simp [children]

theorem Node.program_not_mem_nodes {n : Node} (part : ∀ p, n ≠ .program p) (p : Program) :
    .program p ∉ n.nodes := by
  induction n using Node.of_children with
  | step n ih =>
    intro hp
    rcases mem_nodes hp with hroot | hp
    · exact part p hroot.symm
    · obtain ⟨m, hm, hmp⟩ := List.mem_flatMap.mp hp
      refine ih m hm (fun q hq => ?_) hmp
      exact program_not_mem_children n q (hq ▸ hm)

/-! ## Nodes at other places -/

theorem Stmt.mapSpanAll_eq_map (f : Span → Span) (ss : List Stmt) :
    Stmt.mapSpanAll f ss = ss.map (Stmt.mapSpan f) := by
  induction ss with
  | nil => rfl
  | cons s ss ih => rw [Stmt.mapSpanAll, ih, List.map_cons]

namespace Node

/-- A node with the function applied to all spans of its tree. -/
def mapSpan (f : Span → Span) : Node → Node
  | .program p => .program (p.mapSpan f)
  | .stmt s => .stmt (s.mapSpan f)
  | .expr e => .expr (e.mapSpan f)
  | .missingName => .missingName
  | .foreign label text s => .foreign label text (f s)

def eraseSpans : Node → Node :=
  mapSpan fun _ => ⟨0, 0⟩

theorem kind?_mapSpan (f : Span → Span) (n : Node) : (n.mapSpan f).kind? = n.kind? := by
  cases n with
  | stmt s => cases s <;> rfl
  | expr e => cases e <;> rfl
  | program | missingName | foreign => rfl

theorem mapSpan_ident (f : Span → Span) (name : Option Ident) :
    (Ident.node name).mapSpan f = Ident.node (name.map (Ident.mapSpan f)) := by
  cases name <;> rfl

theorem children_mapSpan (f : Span → Span) (n : Node) :
    (n.mapSpan f).children = n.children.map (mapSpan f) := by
  have hstmts (ss : List Stmt) : (Stmt.mapSpanAll f ss).map Node.stmt =
      (ss.map Node.stmt).map (mapSpan f) := by
    rw [Stmt.mapSpanAll_eq_map, List.map_map, List.map_map]
    rfl
  cases n with
  | program p => exact hstmts p.stmts
  | stmt s =>
    cases s with
    | binding name value span => rw [children, List.map_cons, mapSpan_ident]; rfl
    | absent | stated => rfl
  | expr e =>
    cases e with
    | access target field span =>
      rw [children, List.map_cons, List.map_cons, mapSpan_ident]
      rfl
    | block ss span => exact hstmts ss
    | _ => rfl
  | missingName | foreign => rfl

theorem nodes_mapSpan (f : Span → Span) (n : Node) :
    (n.mapSpan f).nodes = n.nodes.map (mapSpan f) := by
  induction n using of_children with
  | step n ih =>
    by_cases present : n.kind? = none
    · rcases kind?_eq_none_iff.mp present with rfl | rfl
      all_goals rfl
    · have present' : (n.mapSpan f).kind? ≠ none := by rwa [kind?_mapSpan]
      rw [nodes_eq present, nodes_eq present', children_mapSpan, List.flatMap_map, List.map_cons,
        List.map_flatMap]
      congr 1
      exact congrArg List.flatten (List.map_congr_left ih)

/-- A statement or an expression takes its own span along. -/
theorem span?_mapSpan (f : Span → Span) {n : Node} (part : ∀ p, n ≠ .program p) :
    (n.mapSpan f).span? = n.span?.map f := by
  cases n with
  | program p => exact absurd rfl (part p)
  | stmt s => cases s <;> rfl
  | expr e => cases e <;> rfl
  | missingName | foreign => rfl

theorem mapSpan_mapSpan (f g : Span → Span) (n : Node) :
    (n.mapSpan f).mapSpan g = n.mapSpan (g ∘ f) := by
  cases n with
  | program p => exact congrArg (fun ss => program ⟨ss⟩) (Stmt.mapSpanAll_mapSpanAll f g p.stmts)
  | stmt s => exact congrArg stmt (s.mapSpan_mapSpan f g)
  | expr e => exact congrArg expr (e.mapSpan_mapSpan f g)
  | missingName | foreign => rfl

/-- Where the nodes of a tree stand does not matter once the spans are erased. -/
theorem eraseSpans_mapSpan (f : Span → Span) (n : Node) : (n.mapSpan f).eraseSpans = n.eraseSpans :=
  mapSpan_mapSpan f _ n

end Node

end LetLang
