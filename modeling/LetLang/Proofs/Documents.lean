import LetLang.Tree.Marshal
import LetLang.Proofs.ParsedTrees

/-!
# The documents of complete trees

A tree is complete if no part of it is missing and no part is foreign. A complete tree has a document,
and so has each of its parts: the document of a node is an object of its kind at its place, with members
that hold the data of the node and the documents of its children. Of the name of a binding it only has
the text, among the data.
-/
namespace LetLang

namespace Node

/-- No part of the tree is missing, none is foreign, and a delimiter is a character if there is one. -/
inductive Complete : Node → Prop
  | program {p : Program} (stmts : ∀ s ∈ p.stmts, Complete (.stmt s)) : Complete (.program p)
  | binding {value : Expr} (name : Ident) (span : Span) (bound : Complete (.expr value)) :
    Complete (.stmt (.binding (some name) value span))
  | stated {value : Expr} (span : Span) (inner : Complete (.expr value)) :
    Complete (.stmt (.stated value span))
  | ident (i : Ident) : Complete (.expr (.ident i))
  | number (n : UInt32) (span : Span) : Complete (.expr (.number n span))
  | bool (b : Bool) (span : Span) : Complete (.expr (.bool b span))
  | string (value : Text) (quote : Option Char) (span : Span) :
    Complete (.expr (.string value (quote.map .char) span))
  | call {called input : Expr} (span : Span) (callee : Complete (.expr called))
    (argument : Complete (.expr input)) : Complete (.expr (.call called input span))
  | access {target : Expr} (field : Ident) (span : Span) (whole : Complete (.expr target)) :
    Complete (.expr (.access target (some field) span))
  | block {ss : List Stmt} (span : Span) (stmts : ∀ s ∈ ss, Complete (.stmt s)) :
    Complete (.expr (.block ss span))

/-- The document of a node, null if there is none. -/
def json (n : Node) : Json :=
  n.document?.getD .null

theorem document?_of_marshal? {encode : Json.Encoder} {n : Node} {text : List Char}
    (h : n.marshal? encode = some (.ok text)) :
    n.document? = some n.json ∧ encode .compact n.json = .ok text := by
  obtain ⟨j, hj, hencoded⟩ := Option.map_eq_some_iff.mp h
  have hjson : n.json = j := by rw [json, hj, Option.getD_some]
  refine ⟨hjson ▸ hj, ?_⟩
  rw [hjson]
  cases he : encode .compact j with
  | error reason =>
    rw [he] at hencoded
    cases hencoded
  | ok line =>
    rw [he] at hencoded
    cases hencoded
    rfl

/-- The members of the object of a node behind its type and place. -/
def members : Node → List (String × Json)
  | .program p => Json.listMember "statements" (p.stmts.map fun s => (stmt s).json)
  | .stmt (.binding (some name) value _) =>
    Json.textMember "name" name.name ++ [("expr", (expr value).json)]
  | .stmt (.stated value _) => [("expr", (expr value).json)]
  | .expr (.ident i) => Json.textMember "name" i.name
  | .expr (.number n _) => [("value", .num n.toNat)]
  | .expr (.bool b _) => [("value", .bool b)]
  | .expr (.string value quote _) =>
    ("value", .str value) :: Json.textMember "quote" (Text.ofDelimiter quote)
  | .expr (.call called input _) =>
    [("called", (expr called).json), ("input", (expr input).json)]
  | .expr (.access target (some field) _) =>
    [("target", (expr target).json), ("field", (expr (.ident field)).json)]
  | .expr (.block ss _) => Json.listMember "statements" (ss.map fun s => (stmt s).json)
  | _ => []

/-! ## Nodes with an object -/

/-- The node has a document, which is an object of its kind at its place. -/
structure HasObject (n : Node) (kind : Kind) (span : Span) : Prop where
  kind_eq : n.kind? = some kind
  span_eq : n.span? = some span
  document_eq : n.document? = some n.json
  json_eq : n.json = kind.object span n.members

theorem HasObject.of_document {n : Node} {kind : Kind} {span : Span} (hkind : n.kind? = some kind)
    (hspan : n.span? = some span) (h : n.document? = some (kind.object span n.members)) :
    n.HasObject kind span := by
  have hjson : n.json = kind.object span n.members := by
    rw [Node.json, h, Option.getD_some]
  exact ⟨hkind, hspan, h.trans (congrArg some hjson.symm), hjson⟩

/-- The document of a node with an object is no null, so it is never left out. -/
theorem HasObject.partMember {n : Node} {kind : Kind} {span : Span} (h : n.HasObject kind span)
    (key : String) : Json.partMember key n.json = [(key, n.json)] := by
  rw [h.json_eq]
  rfl

end Node

theorem Stmt.documents?_eq_map {ss : List Stmt}
    (h : ∀ s ∈ ss, s.document? = some (Node.stmt s).json) :
    Stmt.documents? ss = some (ss.map fun s => (Node.stmt s).json) := by
  induction ss with
  | nil => rfl
  | cons s ss ih =>
    have hs := h s List.mem_cons_self
    have hss := ih fun t ht => h t (List.mem_cons_of_mem s ht)
    simp only [Stmt.documents?, hs, hss, List.map_cons]

theorem Stmt.documents?_of_hasObject {ss : List Stmt}
    (h : ∀ s ∈ ss, ∃ kind span, (Node.stmt s).HasObject kind span) :
    Stmt.documents? ss = some (ss.map fun s => (Node.stmt s).json) := by
  refine Stmt.documents?_eq_map fun s hs => ?_
  obtain ⟨_, _, hobject⟩ := h s hs
  exact hobject.document_eq

/-- A program has a place unless its first or its last statement is absent. -/
theorem Program.exists_span {p : Program} (h : ∀ s ∈ p.stmts, s.isAbsent = false) :
    ∃ span, p.span? = some span := by
  unfold Program.span?
  split
  next first last hfirst hlast =>
    have hpresent := h first (List.mem_of_mem_head? hfirst)
    have hpresent' := h last (List.mem_of_getLast? hlast)
    simp [hpresent, hpresent']
  next => exact ⟨_, rfl⟩

namespace Node

theorem Complete.isAbsent {s : Stmt} (h : (Node.stmt s).Complete) : s.isAbsent = false := by
  cases h <;> rfl

/-- Every part of a complete tree has an object. -/
theorem Complete.hasObject {n : Node} (h : n.Complete) : ∃ kind span, n.HasObject kind span := by
  induction h with
  | @program p stmts ih =>
    obtain ⟨span, hspan⟩ := Program.exists_span fun s hs => (stmts s hs).isAbsent
    have hitems := Stmt.documents?_of_hasObject ih
    refine ⟨.program, span, .of_document rfl hspan ?_⟩
    simp only [document?, hspan, hitems, members]
  | @binding value name span _ ih =>
    obtain ⟨_, _, hobject⟩ := ih
    have hvalue : value.document? = some (Node.expr value).json := hobject.document_eq
    refine ⟨.binding, span, .of_document rfl rfl ?_⟩
    simp only [document?, Stmt.document?, hvalue, hobject.partMember, members]
  | @stated value span _ ih =>
    obtain ⟨_, _, hobject⟩ := ih
    have hvalue : value.document? = some (Node.expr value).json := hobject.document_eq
    refine ⟨.stated, span, .of_document rfl rfl ?_⟩
    simp only [document?, Stmt.document?, hvalue, hobject.partMember, members]
  | ident i => exact ⟨.ident, i.span, .of_document rfl rfl rfl⟩
  | number _ span => exact ⟨.number, span, .of_document rfl rfl rfl⟩
  | bool _ span => exact ⟨.bool, span, .of_document rfl rfl rfl⟩
  | string _ _ span => exact ⟨.string, span, .of_document rfl rfl rfl⟩
  | @call called input span _ _ ihc ihi =>
    obtain ⟨_, _, hobject⟩ := ihc
    obtain ⟨_, _, hobject'⟩ := ihi
    have hcalled : called.document? = some (Node.expr called).json := hobject.document_eq
    have hinput : input.document? = some (Node.expr input).json := hobject'.document_eq
    refine ⟨.call, span, .of_document rfl rfl ?_⟩
    simp only [document?, Expr.document?, hcalled, hinput, hobject.partMember, hobject'.partMember,
      members, List.cons_append, List.nil_append]
  | @access target field span _ ih =>
    obtain ⟨_, _, hobject⟩ := ih
    have htarget : target.document? = some (Node.expr target).json := hobject.document_eq
    have hfield : (Node.expr (.ident field)).json = field.document := rfl
    refine ⟨.access, span, .of_document rfl rfl ?_⟩
    simp only [document?, Expr.document?, htarget, hobject.partMember, members, hfield,
      List.cons_append, List.nil_append]
  | @block ss span _ ih =>
    have hitems := Stmt.documents?_of_hasObject ih
    refine ⟨.block, span, .of_document rfl rfl ?_⟩
    simp only [document?, Expr.document?, hitems, members]

end Node

/-! ## Well-formed trees are complete -/

open Parse (Options)

mutual

theorem Expr.WellFormed.complete {o : Options} {e : Expr} (h : e.WellFormed o) :
    (Node.expr e).Complete := by
  cases e with
  | absent => cases h
  | ident i => exact .ident i
  | number n span => exact .number n span
  | bool b span => exact .bool b span
  | string value quote span =>
    obtain ⟨q, _, rfl, _⟩ := h
    exact .string value (some q.char) span
  | call called input span =>
    obtain ⟨_, hcalled, hinput⟩ := h
    exact .call span hcalled.complete hinput.complete
  | access target field span =>
    obtain ⟨_, _, htarget, i, rfl, _⟩ := h
    exact .access i span htarget.complete
  | block ss span => exact .block span (Stmt.AllWellFormed.complete h.2)

theorem Stmt.WellFormed.complete {o : Options} {s : Stmt} (h : s.WellFormed o) :
    (Node.stmt s).Complete := by
  cases s with
  | absent => cases h
  | binding name value span =>
    obtain ⟨⟨i, rfl, _⟩, hvalue⟩ := h
    exact .binding i span hvalue.complete
  | stated value span => exact .stated span (Expr.WellFormed.complete h)

theorem Stmt.AllWellFormed.complete {o : Options} {ss : List Stmt} (h : Stmt.AllWellFormed o ss) :
    ∀ s ∈ ss, (Node.stmt s).Complete := by
  cases ss with
  | nil => exact nofun
  | cons s ss =>
    intro t ht
    cases ht with
    | head => exact h.1.complete
    | tail _ ht => exact Stmt.AllWellFormed.complete h.2 t ht

end

theorem Node.WellFormed.complete {o : Options} {n : Node} (h : n.WellFormed o) : n.Complete := by
  cases n with
  | program p => exact .program (Stmt.AllWellFormed.complete h)
  | stmt s => exact Stmt.WellFormed.complete h
  | expr e => exact Expr.WellFormed.complete h
  | missingName | foreign => cases h

end LetLang
