import Mathlib.Logic.Basic
import LetLang.Proofs.Documents
import LetLang.Proofs.Indentation
import LetLang.Proofs.Nodes

/-!
# Trees with missing parts

A tree that is built by hand can lack parts at any depth. Its text needs every part, so there is none as
soon as one is missing. Its document needs less: the names of bindings, the fields of accesses, and the
first and the last statement of a program, which tell its place. Any other missing part leaves a gap. An
absent statement is null among the statements around it, and an absent expression has no member in the
object of the node above it.
-/
namespace LetLang

namespace Node

/-- The node stands for a part that is missing. -/
inductive Missing : Node → Prop
  | stmt : Missing (.stmt .absent)
  | expr : Missing (.expr .absent)
  | name : Missing .missingName

/-- A part is missing somewhere in the tree. -/
def LacksPart (n : Node) : Prop :=
  ∃ m ∈ n.nodes, ∃ k ∈ m.children, k.Missing

/-- Some binding of the tree has no name, or some access has no field. -/
def LacksName (n : Node) : Prop :=
  (∃ value span, .stmt (.binding none value span) ∈ n.nodes) ∨
    ∃ target span, .expr (.access target none span) ∈ n.nodes

/-- The tree is a program whose first or last statement is absent. -/
def LacksEnd (n : Node) : Prop :=
  ∃ p : Program, n = .program p ∧
    (p.stmts.head? = some .absent ∨ p.stmts.getLast? = some .absent)

end Node

/-! ## Texts -/

theorem Stmt.allWhole_iff (ss : List Stmt) : Stmt.AllWhole ss ↔ ∀ s ∈ ss, s.Whole := by
  induction ss with
  | nil => exact iff_of_true trivial (List.forall_mem_nil _)
  | cons s ss ih => rw [List.forall_mem_cons, ← ih, Stmt.AllWhole]

namespace Node

/-- No part of the tree is missing. -/
def Whole : Node → Prop
  | .program p => Stmt.AllWhole p.stmts
  | .stmt s => s.Whole
  | .expr e => e.Whole
  | .missingName => False
  | .foreign _ _ _ => True

theorem isSome_text?_iff (style : Style) (indent : Text) (n : Node) :
    (n.text? style indent).isSome ↔ n.Whole := by
  cases n with
  | program p => exact Stmt.isSome_writeAll_iff style indent p.stmts []
  | stmt s => exact Stmt.isSome_write_iff style indent s []
  | expr e => exact Expr.isSome_write_iff style indent e []
  | missingName => exact iff_of_false Bool.false_ne_true id
  | foreign => exact iff_of_true rfl trivial

/-- A tree is whole if its root is there and the trees below it are whole. -/
theorem whole_iff (n : Node) : n.Whole ↔ ¬ n.Missing ∧ ∀ k ∈ n.children, k.Whole := by
  have hroot {q : Prop} (h : ¬ n.Missing) (hq : n.Whole ↔ q) : n.Whole ↔ ¬ n.Missing ∧ q := by
    rw [hq, and_iff_right h]
  have hstmts (ss : List Stmt) : Stmt.AllWhole ss ↔ ∀ k ∈ ss.map Node.stmt, k.Whole := by
    rw [Stmt.allWhole_iff, List.forall_mem_map]
    rfl
  have hname (name : Option Ident) : (Ident.node name).Whole ↔ name ≠ none := by
    cases name with
    | none => exact iff_of_false id fun h => h rfl
    | some i => exact iff_of_true trivial (Option.some_ne_none i)
  cases n with
  | program p => exact hroot (by rintro ⟨⟩) (hstmts p.stmts)
  | stmt s =>
    cases s with
    | absent => exact iff_of_false id fun h => h.1 .stmt
    | binding name value span =>
      refine hroot (by rintro ⟨⟩) ?_
      rw [children, List.forall_mem_cons, List.forall_mem_singleton, hname]
      cases name with
      | none => exact iff_of_false id fun h => h.1 rfl
      | some i => exact (and_iff_right (Option.some_ne_none i)).symm
    | stated value span =>
      refine hroot (by rintro ⟨⟩) ?_
      rw [children, List.forall_mem_singleton]
      rfl
  | expr e =>
    cases e with
    | absent => exact iff_of_false id fun h => h.1 .expr
    | ident | number | bool | string => exact hroot (by rintro ⟨⟩) (iff_of_true trivial (List.forall_mem_nil _))
    | call called input span =>
      refine hroot (by rintro ⟨⟩) ?_
      rw [children, List.forall_mem_cons, List.forall_mem_singleton]
      rfl
    | access target field span =>
      refine hroot (by rintro ⟨⟩) ?_
      rw [children, List.forall_mem_cons, List.forall_mem_singleton, hname]
      cases field with
      | none => exact iff_of_false id fun h => h.2 rfl
      | some i => exact (and_iff_left (Option.some_ne_none i)).symm
    | block ss span => exact hroot (by rintro ⟨⟩) (hstmts ss)
  | missingName => exact iff_of_false id fun h => h.1 .name
  | foreign => exact hroot (by rintro ⟨⟩) (iff_of_true trivial (List.forall_mem_nil _))

/-- A part is missing in a tree if it is one of the trees below the root, or missing in one of them. -/
theorem lacksPart_iff (n : Node) : n.LacksPart ↔ ∃ c ∈ n.children, c.Missing ∨ c.LacksPart := by
  constructor
  · rintro ⟨m, hm, k, hk, missing⟩
    rcases mem_nodes hm with rfl | hm
    · exact ⟨k, hk, .inl missing⟩
    · obtain ⟨c, hc, hmc⟩ := List.mem_flatMap.mp hm
      exact ⟨c, hc, .inr ⟨m, hmc, k, hk, missing⟩⟩
  · rintro ⟨c, hc, missing | ⟨m, hm, k, hk, missing⟩⟩
    · exact ⟨n, mem_nodes_self (kind?_of_child hc), c, hc, missing⟩
    · exact ⟨m, nodes_subset_of_child hc hm, k, hk, missing⟩

theorem whole_iff_not_lacksPart (n : Node) : n.Whole ↔ ¬ n.Missing ∧ ¬ n.LacksPart := by
  induction n using of_children with
  | step n ih =>
    rw [whole_iff, lacksPart_iff]
    simp only [not_exists, not_and, not_or]
    exact and_congr_right fun _ => forall₂_congr ih

end Node

/-! ## Documents -/

theorem Stmt.isAbsent_iff {s : Stmt} : s.isAbsent = true ↔ s = .absent := by
  cases s <;> simp [isAbsent]

theorem Program.span?_eq_none_iff (p : Program) :
    p.span? = none ↔ p.stmts.head? = some .absent ∨ p.stmts.getLast? = some .absent := by
  obtain ⟨ss⟩ := p
  cases ss with
  | nil => exact iff_of_false (Option.some_ne_none _) (by simp)
  | cons s ss =>
    have hlast := List.getLast?_eq_some_getLast (List.cons_ne_nil s ss)
    simp only [span?, List.head?_cons, hlast, Option.some_inj, ← Stmt.isAbsent_iff]
    cases s.isAbsent <;> cases ((s :: ss).getLast (List.cons_ne_nil s ss)).isAbsent <;> simp

theorem Stmt.isSome_documents?_iff (ss : List Stmt) :
    (Stmt.documents? ss).isSome ↔ ∀ s ∈ ss, s.document?.isSome := by
  induction ss with
  | nil => exact iff_of_true rfl (List.forall_mem_nil _)
  | cons s ss ih =>
    rw [List.forall_mem_cons, ← ih, Stmt.documents?]
    cases s.document? <;> cases Stmt.documents? ss <;> simp

namespace Node

theorem lacksEnd_program (p : Program) : (program p).LacksEnd ↔ p.span? = none := by
  rw [Program.span?_eq_none_iff]
  constructor
  · rintro ⟨_, hp, h⟩
    cases hp
    exact h
  · exact fun h => ⟨p, rfl, h⟩

theorem not_lacksEnd {n : Node} (part : ∀ p, n ≠ .program p) : ¬ n.LacksEnd := by
  rintro ⟨p, hp, -⟩
  exact part p hp

/-- A tree has a document if the trees below its root have documents and the root needs nothing that is
missing. -/
theorem isSome_document?_iff (n : Node) :
    n.document?.isSome ↔
      (n ≠ .missingName ∧ ¬ n.LacksEnd) ∧ ∀ k ∈ n.children, k.document?.isSome := by
  have hstmts (ss : List Stmt) :
      (Stmt.documents? ss).isSome ↔ ∀ k ∈ ss.map Node.stmt, k.document?.isSome := by
    rw [Stmt.isSome_documents?_iff, List.forall_mem_map]
    rfl
  have hname (name : Option Ident) : (Ident.node name).document?.isSome ↔ name.isSome := by
    cases name <;> rfl
  cases n with
  | program p =>
    rw [lacksEnd_program, children, ← hstmts]
    simp only [document?]
    cases p.span? <;> cases Stmt.documents? p.stmts <;> simp
  | stmt s =>
    have present : stmt s ≠ .missingName := by rintro ⟨⟩
    rw [and_iff_right ⟨present, not_lacksEnd (by rintro _ ⟨⟩)⟩]
    cases s with
    | absent => exact iff_of_true rfl (List.forall_mem_nil _)
    | binding name value span =>
      rw [children, List.forall_mem_cons, List.forall_mem_singleton, hname]
      simp only [document?, Stmt.document?]
      cases name <;> cases value.document? <;> simp
    | stated value span =>
      rw [children, List.forall_mem_singleton]
      simp only [document?, Stmt.document?]
      cases value.document? <;> simp
  | expr e =>
    have present : expr e ≠ .missingName := by rintro ⟨⟩
    rw [and_iff_right ⟨present, not_lacksEnd (by rintro _ ⟨⟩)⟩]
    cases e with
    | absent | ident | number | bool | string => exact iff_of_true rfl (List.forall_mem_nil _)
    | call called input span =>
      rw [children, List.forall_mem_cons, List.forall_mem_singleton]
      simp only [document?, Expr.document?]
      cases called.document? <;> cases input.document? <;> simp
    | access target field span =>
      rw [children, List.forall_mem_cons, List.forall_mem_singleton, hname]
      simp only [document?, Expr.document?]
      cases target.document? <;> cases field <;> simp
    | block ss span =>
      rw [children, ← hstmts]
      simp only [document?, Expr.document?]
      cases Stmt.documents? ss <;> simp
  | missingName => exact iff_of_false Bool.false_ne_true fun h => h.1.1 rfl
  | foreign label text span =>
    have present : foreign label text span ≠ .missingName := by rintro ⟨⟩
    exact iff_of_true rfl ⟨⟨present, not_lacksEnd (by rintro _ ⟨⟩)⟩, List.forall_mem_nil _⟩

theorem missingName_notMem_nodes_iff (n : Node) :
    .missingName ∉ n.nodes ↔ n ≠ .missingName ∧ ∀ k ∈ n.children, .missingName ∉ k.nodes := by
  constructor
  · intro h
    refine ⟨?_, fun k hk hmem => h (nodes_subset_of_child hk hmem)⟩
    rintro rfl
    exact h List.mem_cons_self
  · rintro ⟨hroot, hbelow⟩ hmem
    rcases mem_nodes hmem with hn | hmem
    · exact hroot hn.symm
    · obtain ⟨k, hk, hmem⟩ := List.mem_flatMap.mp hmem
      exact hbelow k hk hmem

/-- A tree has a document unless one of its names is missing or its place cannot be told. -/
theorem isSome_document?_iff_notMem (n : Node) :
    n.document?.isSome ↔ .missingName ∉ n.nodes ∧ ¬ n.LacksEnd := by
  induction n using of_children with
  | step n ih =>
    have hbelow : (∀ k ∈ n.children, k.document?.isSome) ↔
        ∀ k ∈ n.children, .missingName ∉ k.nodes := by
      refine forall₂_congr fun k hk => ?_
      have hpart (p : Program) : k ≠ .program p := fun hp => program_not_mem_children n p (hp ▸ hk)
      rw [ih k hk, and_iff_left (not_lacksEnd hpart)]
    rw [isSome_document?_iff, hbelow, missingName_notMem_nodes_iff, and_right_comm]

/-- A missing name is that of a binding or an access. -/
theorem eq_of_missingName_mem_children {m : Node} (h : .missingName ∈ m.children) :
    (∃ value span, m = .stmt (.binding none value span)) ∨
      ∃ target span, m = .expr (.access target none span) := by
  cases m with
  | program p => simp [children] at h
  | stmt s =>
    cases s with
    | absent => cases h
    | binding name value span =>
      cases name with
      | none => exact .inl ⟨value, span, rfl⟩
      | some i => simp [children, Ident.node] at h
    | stated => simp [children] at h
  | expr e =>
    cases e with
    | absent | ident | number | bool | string => cases h
    | access target field span =>
      cases field with
      | none => exact .inr ⟨target, span, rfl⟩
      | some i => simp [children, Ident.node] at h
    | call | block => simp [children] at h
  | missingName | foreign => cases h

theorem missingName_mem_nodes_iff {n : Node} (root : n ≠ .missingName) :
    .missingName ∈ n.nodes ↔ n.LacksName := by
  have present : missingName.kind? ≠ none := Option.some_ne_none _
  constructor
  · intro hmem
    rcases exists_parent hmem with hn | ⟨m, hm, hchild⟩
    · exact absurd hn.symm root
    · rcases eq_of_missingName_mem_children hchild with ⟨value, span, rfl⟩ | ⟨target, span, rfl⟩
      · exact .inl ⟨value, span, hm⟩
      · exact .inr ⟨target, span, hm⟩
  · rintro (⟨value, span, hm⟩ | ⟨target, span, hm⟩)
    · exact child_mem_nodes hm List.mem_cons_self present
    · exact child_mem_nodes hm (List.mem_cons_of_mem _ List.mem_cons_self) present

theorem document?_eq_none_iff {n : Node} (root : n ≠ .missingName) :
    n.document? = none ↔ n.LacksName ∨ n.LacksEnd := by
  rw [← Option.not_isSome_iff_eq_none, isSome_document?_iff_notMem, missingName_mem_nodes_iff root,
    not_and_or, not_not, not_not]

/-- Where the whole tree has a document, every part of it that a walk comes to has one. -/
theorem isSome_document?_of_mem {n : Node} (h : n.document?.isSome) :
    ∀ m ∈ n.nodes, m.document?.isSome :=
  forall_nodes (fun m hm => ((isSome_document?_iff m).mp hm).2) n h

theorem document?_eq_json {n : Node} (h : n.document?.isSome) : n.document? = some n.json := by
  obtain ⟨j, hj⟩ := Option.isSome_iff_exists.mp h
  rw [json, hj, Option.getD_some]

/-! ## Gaps -/

/-- The expressions directly below a node, each with the key of the member that shows it. -/
def slots : Node → List (String × Expr)
  | .stmt (.binding _ value _) | .stmt (.stated value _) => [("expr", value)]
  | .expr (.call called input _) => [("called", called), ("input", input)]
  | .expr (.access target _ _) => [("target", target)]
  | _ => []

/-- The list of statements of a node that has one. -/
def stmts : Node → List Stmt
  | .program p => p.stmts
  | .expr (.block ss _) => ss
  | _ => []

end Node

/-- The value of a member of an object. -/
def Json.member? (key : String) : Json → Option Json
  | .obj members => members.lookup key
  | _ => none

namespace Node

/-- The document of the node is an object in which an absent expression has no member, and the array of
its statements has null for the absent ones. Every other part is shown by its own document. -/
structure ShowsParts (n : Node) : Prop where
  object : ∃ label span members, n.document? = some (Json.node label span members)
  exprs : ∀ key e, (key, e) ∈ n.slots →
    n.json.member? key = if e.isAbsent then none else some (expr e).json
  items : n.stmts ≠ [] →
    n.json.member? "statements" = some (.arr (n.stmts.map fun s => (stmt s).json))
  nulls : ∀ s ∈ n.stmts, (stmt s).json = .null ↔ s = .absent

end Node

namespace Json

theorem lookup_cons_of_ne {key key' : String} (other : key ≠ key') (j : Json)
    (members : List (String × Json)) :
    List.lookup key ((key', j) :: members) = members.lookup key := by
  rw [List.lookup_cons, beq_eq_false_iff_ne.mpr other]

theorem member?_object {key : String} (notType : key ≠ "type") (notPos : key ≠ "pos")
    (kind : Node.Kind) (span : Span) (members : List (String × Json)) :
    (kind.object span members).member? key = members.lookup key :=
  (lookup_cons_of_ne notType _ _).trans (lookup_cons_of_ne notPos _ _)

theorem lookup_textMember {key key' : String} (other : key ≠ key') (t : Text) :
    (textMember key' t).lookup key = none := by
  cases t with
  | nil => rfl
  | cons g t => exact lookup_cons_of_ne other _ _

theorem lookup_partMember {key key' : String} (other : key ≠ key') (j : Json) :
    (partMember key' j).lookup key = none := by
  cases j with
  | null => rfl
  | _ => exact lookup_cons_of_ne other _ _

theorem lookup_listMember (key : String) {items : List Json} (h : items ≠ []) :
    (listMember key items).lookup key = some (.arr items) := by
  cases items with
  | nil => exact absurd rfl h
  | cons j js => exact List.lookup_cons_self

end Json

namespace Node

/-- The document of a node that is there is an object. -/
theorem exists_object {n : Node} (h : n.document?.isSome) (present : ¬ n.Missing) :
    ∃ label span members, n.document? = some (.node label span members) := by
  obtain ⟨j, hj⟩ := Option.isSome_iff_exists.mp h
  rw [hj]
  cases n with
  | program p =>
    simp only [document?] at hj
    split at hj
    next => cases hj; exact ⟨_, _, _, rfl⟩
    next => cases hj
  | stmt s =>
    cases s with
    | absent => exact absurd .stmt present
    | binding | stated =>
      simp only [document?, Stmt.document?] at hj
      split at hj
      next => cases hj; exact ⟨_, _, _, rfl⟩
      next => cases hj
  | expr e =>
    cases e with
    | absent => exact absurd .expr present
    | ident | number | bool | string => cases hj; exact ⟨_, _, _, rfl⟩
    | call | access | block =>
      simp only [document?, Expr.document?] at hj
      split at hj
      next => cases hj; exact ⟨_, _, _, rfl⟩
      next => cases hj
  | missingName => exact absurd .name present
  | foreign => cases hj; exact ⟨_, _, _, rfl⟩

/-- The member of an expression is left out if and only if the expression is absent. -/
theorem lookup_partMember_json {e : Expr} (h : (expr e).document?.isSome) (key : String) :
    (Json.partMember key (expr e).json).lookup key =
      if e.isAbsent then none else some (expr e).json := by
  by_cases habsent : e = .absent
  · rw [habsent]
    rfl
  · have present : ¬ (expr e).Missing := by
      rintro ⟨⟩
      exact habsent rfl
    have hthere : e.isAbsent = false := by
      cases e with
      | absent => exact absurd rfl habsent
      | _ => rfl
    obtain ⟨label, span, members, hobject⟩ := exists_object h present
    have hjson : (expr e).json = .node label span members := by rw [json, hobject, Option.getD_some]
    rw [hjson, hthere]
    exact List.lookup_cons_self

/-- In a list of statements exactly the absent ones are null. -/
theorem json_stmt_eq_null_iff {s : Stmt} (h : (stmt s).document?.isSome) :
    (stmt s).json = .null ↔ s = .absent := by
  by_cases habsent : s = .absent
  · exact iff_of_true (habsent ▸ rfl) habsent
  · have present : ¬ (stmt s).Missing := by
      rintro ⟨⟩
      exact habsent rfl
    obtain ⟨label, span, members, hobject⟩ := exists_object h present
    refine iff_of_false ?_ habsent
    rw [json, hobject]
    rintro ⟨⟩

/-- A node that has neither expressions nor statements below it shows them all. -/
theorem ShowsParts.of_leaf {n : Node} (h : n.document?.isSome) (present : ¬ n.Missing)
    (noExprs : n.slots = []) (noStmts : n.stmts = []) : n.ShowsParts := by
  refine ⟨exists_object h present, ?_, fun hne => absurd noStmts hne, ?_⟩
  · rw [noExprs]
    rintro _ _ ⟨⟩
  · rw [noStmts]
    exact List.forall_mem_nil _

/-- An object without a list of statements shows the parts if its members show the expressions. -/
theorem ShowsParts.of_exprs {n : Node} {kind : Kind} {span : Span} {members : List (String × Json)}
    (h : n.document? = some (kind.object span members)) (noStmts : n.stmts = [])
    (shown : ∀ key e, (key, e) ∈ n.slots → key ≠ "type" ∧ key ≠ "pos" ∧
      members.lookup key = if e.isAbsent then none else some (expr e).json) : n.ShowsParts := by
  have hjson : n.json = kind.object span members := by rw [json, h, Option.getD_some]
  refine ⟨⟨_, _, _, h⟩, fun key e hslot => ?_, fun hne => absurd noStmts hne, ?_⟩
  · obtain ⟨notType, notPos, hlookup⟩ := shown key e hslot
    rw [hjson, Json.member?_object notType notPos, hlookup]
  · rw [noStmts]
    exact List.forall_mem_nil _

/-- The same with just one expression. -/
theorem ShowsParts.of_expr {n : Node} {kind : Kind} {span : Span} {members : List (String × Json)}
    {key : String} {e : Expr} (h : n.document? = some (kind.object span members))
    (noStmts : n.stmts = []) (single : n.slots = [(key, e)]) (notType : key ≠ "type")
    (notPos : key ≠ "pos")
    (shown : members.lookup key = if e.isAbsent then none else some (expr e).json) :
    n.ShowsParts := by
  refine .of_exprs h noStmts fun key' e' hslot => ?_
  rw [single, List.mem_singleton, Prod.mk.injEq] at hslot
  obtain ⟨rfl, rfl⟩ := hslot
  exact ⟨notType, notPos, shown⟩

/-- An object with nothing but a list of statements shows them if all of them have documents. -/
theorem ShowsParts.of_stmts {n : Node} {kind : Kind} {span : Span}
    (h : n.document? = some (kind.object span
      (Json.listMember "statements" (n.stmts.map fun s => (stmt s).json))))
    (noExprs : n.slots = []) (items : ∀ s ∈ n.stmts, (stmt s).document?.isSome) : n.ShowsParts := by
  have hjson : n.json = kind.object span
      (Json.listMember "statements" (n.stmts.map fun s => (stmt s).json)) := by
    rw [json, h, Option.getD_some]
  refine ⟨⟨_, _, _, h⟩, ?_, fun hne => ?_, fun s hs => json_stmt_eq_null_iff (items s hs)⟩
  · rw [noExprs]
    rintro _ _ ⟨⟩
  · rw [hjson, Json.member?_object (by decide) (by decide)]
    exact Json.lookup_listMember "statements" (mt List.map_eq_nil_iff.mp hne)

theorem documents?_eq_json {ss : List Stmt} (h : ∀ s ∈ ss, (stmt s).document?.isSome) :
    Stmt.documents? ss = some (ss.map fun s => (stmt s).json) :=
  Stmt.documents?_eq_map fun s hs => document?_eq_json (h s hs)

theorem showsParts_program {p : Program} (h : (program p).document?.isSome) :
    (program p).ShowsParts := by
  obtain ⟨⟨-, hends⟩, hbelow⟩ := (isSome_document?_iff _).mp h
  have hstmts := List.forall_mem_map.mp hbelow
  obtain ⟨span, hspan⟩ := Option.ne_none_iff_exists'.mp (mt (lacksEnd_program p).mpr hends)
  have hdoc : (program p).document? = some (Kind.program.object span
      (Json.listMember "statements" (p.stmts.map fun s => (stmt s).json))) := by
    simp only [document?, hspan, documents?_eq_json hstmts]
  exact .of_stmts hdoc rfl hstmts

theorem showsParts_stmt {s : Stmt} (h : (stmt s).document?.isSome) (present : s ≠ .absent) :
    (stmt s).ShowsParts := by
  have hbelow := ((isSome_document?_iff _).mp h).2
  cases s with
  | absent => exact absurd rfl present
  | binding name value span =>
    obtain ⟨hname, hvalue⟩ := List.forall_mem_cons.mp hbelow
    replace hvalue := List.forall_mem_singleton.mp hvalue
    cases name with
    | none => exact absurd hname Bool.false_ne_true
    | some i =>
      have hv : value.document? = some (expr value).json := document?_eq_json hvalue
      refine .of_expr (by simp only [document?, Stmt.document?, hv]; rfl) rfl rfl (by decide)
        (by decide) ?_
      rw [List.lookup_append, Json.lookup_textMember (by decide), Option.none_or,
        lookup_partMember_json hvalue]
  | stated value span =>
    have hvalue := List.forall_mem_singleton.mp hbelow
    have hv : value.document? = some (expr value).json := document?_eq_json hvalue
    exact .of_expr (by simp only [document?, Stmt.document?, hv]; rfl) rfl rfl (by decide)
      (by decide) (lookup_partMember_json hvalue _)

theorem showsParts_expr {e : Expr} (h : (expr e).document?.isSome) (present : e ≠ .absent) :
    (expr e).ShowsParts := by
  have hbelow := ((isSome_document?_iff _).mp h).2
  cases e with
  | absent => exact absurd rfl present
  | ident | number | bool | string => exact .of_leaf h (by rintro ⟨⟩) rfl rfl
  | call called input span =>
    obtain ⟨hcalled, hinput⟩ := List.forall_mem_cons.mp hbelow
    replace hinput := List.forall_mem_singleton.mp hinput
    have hc : called.document? = some (expr called).json := document?_eq_json hcalled
    have hi : input.document? = some (expr input).json := document?_eq_json hinput
    refine .of_exprs (by simp only [document?, Expr.document?, hc, hi]; rfl) rfl ?_
    simp only [slots, List.mem_cons, List.not_mem_nil, or_false, Prod.mk.injEq]
    rintro _ _ (⟨rfl, rfl⟩ | ⟨rfl, rfl⟩)
    · refine ⟨by decide, by decide, ?_⟩
      rw [List.lookup_append, lookup_partMember_json hcalled, Json.lookup_partMember (by decide),
        Option.or_none]
    · refine ⟨by decide, by decide, ?_⟩
      rw [List.lookup_append, Json.lookup_partMember (by decide), Option.none_or,
        lookup_partMember_json hinput]
  | access target field span =>
    obtain ⟨htarget, hfield⟩ := List.forall_mem_cons.mp hbelow
    cases field with
    | none => exact absurd (List.forall_mem_singleton.mp hfield) Bool.false_ne_true
    | some i =>
      have ht : target.document? = some (expr target).json := document?_eq_json htarget
      refine .of_expr (by simp only [document?, Expr.document?, ht]; rfl) rfl rfl (by decide)
        (by decide) ?_
      rw [List.lookup_append, lookup_partMember_json htarget, Json.lookup_cons_of_ne (by decide),
        List.lookup_nil, Option.or_none]
  | block ss span =>
    have hstmts := List.forall_mem_map.mp hbelow
    have hdoc : (expr (.block ss span)).document? = some (Kind.block.object span
        (Json.listMember "statements" (ss.map fun s => (stmt s).json))) := by
      simp only [document?, Expr.document?, documents?_eq_json hstmts]
    exact .of_stmts hdoc rfl hstmts

/-- A node with a document shows its parts: their documents are its members and items, up to the gaps. -/
theorem showsParts {m : Node} (h : m.document?.isSome) (present : ¬ m.Missing) : m.ShowsParts := by
  cases m with
  | program p => exact showsParts_program h
  | stmt s => exact showsParts_stmt h fun absent => present (absent ▸ .stmt)
  | expr e => exact showsParts_expr h fun absent => present (absent ▸ .expr)
  | missingName => exact absurd .name present
  | foreign => exact .of_leaf h present rfl rfl

/-- A walk comes to no missing part but the name of a binding or the field of an access. -/
theorem not_missing_of_mem {n m : Node} (hm : m ∈ n.nodes) (named : m ≠ .missingName) :
    ¬ m.Missing := by
  have hkind := kind?_of_mem_nodes hm
  rintro ⟨⟩
  · exact hkind rfl
  · exact hkind rfl
  · exact named rfl

/-- A tree has no text, in any style and behind any indentation, if and only if some part is missing in
it. It has no document, and no encoder is asked for anything, if and only if a binding has no name, an
access has no field, or it is a program whose first or last statement is absent; otherwise its document
is encoded, and it shows all parts, with null for an absent statement and without a member for an absent
expression. -/
theorem needs_parts {n : Node} (present : ¬ n.Missing) :
    (∀ style indent, n.text? style indent = none ↔ n.LacksPart) ∧
    (∀ encode, n.marshal? encode = none ↔ n.LacksName ∨ n.LacksEnd) ∧
    (∀ encode, n.marshalIndented? encode = none ↔ n.LacksName ∨ n.LacksEnd) ∧
    (¬ (n.LacksName ∨ n.LacksEnd) →
      (∀ encode : Json.Encoder,
        n.marshal? encode = some ((encode .compact n.json).mapError Json.failure) ∧
        n.marshalIndented? encode = some ((encode .indented n.json).mapError Json.failure)) ∧
      ∀ m ∈ n.nodes, m.ShowsParts) := by
  have hroot : n ≠ .missingName := by
    rintro rfl
    exact present .name
  have hnone := document?_eq_none_iff hroot
  refine ⟨fun style indent => ?_, fun encode => ?_, fun encode => ?_, ?_⟩
  · rw [← Option.not_isSome_iff_eq_none, isSome_text?_iff, whole_iff_not_lacksPart,
      and_iff_right present, not_not]
  · rw [marshal?, Option.map_eq_none_iff, hnone]
  · rw [marshalIndented?, Option.map_eq_none_iff, hnone]
  · intro complete
    have hsome : n.document?.isSome := Option.isSome_iff_ne_none.mpr (mt hnone.mp complete)
    have hjson := document?_eq_json hsome
    refine ⟨fun encode => ⟨?_, ?_⟩, fun m hm => ?_⟩
    · rw [marshal?, hjson]
      rfl
    · rw [marshalIndented?, hjson]
      rfl
    · have hm' := isSome_document?_of_mem hsome m hm
      refine showsParts hm' (not_missing_of_mem hm ?_)
      rintro rfl
      cases hm'

/-- A call without a callee, and a block with an absent statement and with a binding without a value. -/
theorem needs_parts_call_of_gaps :
    let n := Node.program ⟨[.stated (.call .absent (.block [.absent,
      .binding (some ⟨[.char 'a'], ⟨5, 5⟩⟩) .absent ⟨1, 9⟩] ⟨0, 10⟩) ⟨0, 11⟩) ⟨0, 11⟩]⟩
    ¬ n.Missing ∧ (∀ style indent, n.text? style indent = none) ∧
      (∀ encode : Json.Encoder,
        n.marshal? encode = some ((encode .compact n.json).mapError Json.failure)) ∧
      ∀ m ∈ n.nodes, m.ShowsParts := by
  intro n
  have present : ¬ n.Missing := by
    change ¬ (Node.program _).Missing
    rintro ⟨⟩
  obtain ⟨htext, hmarshal, -, hshown⟩ := needs_parts present
  have lacks : n.LacksPart :=
    ⟨_, List.mem_cons_of_mem _ (List.mem_cons_of_mem _ List.mem_cons_self), _, List.mem_cons_self,
      .expr⟩
  have complete : ¬ (n.LacksName ∨ n.LacksEnd) := by
    rw [← hmarshal fun _ _ => .ok []]
    exact Option.some_ne_none _
  obtain ⟨hencoded, hparts⟩ := hshown complete
  exact ⟨present, fun style indent => (htext style indent).mpr lacks,
    fun encode => (hencoded encode).1, hparts⟩

example :
    (expr (.block [.absent, .stated .absent ⟨2, 2⟩] ⟨0, 3⟩)).document? = some (Kind.block.object ⟨0, 3⟩
      (Json.listMember "statements" [.null, Kind.stated.object ⟨2, 2⟩ []])) := by
  rfl

end Node

end LetLang
