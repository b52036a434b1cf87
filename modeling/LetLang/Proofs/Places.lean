import LetLang.Proofs.Documents
import LetLang.Proofs.JsonText
import LetLang.Proofs.Nodes
import LetLang.Proofs.Printer

/-!
# The places in a document

The document of a parsed program has the places of its nodes in the order of a walk. It leaves one out
for every binding: the name that is bound is a node of the walk, but the object of the binding has its
text only. So the places of a document are those of all nodes if and only if the program binds nothing.
-/
namespace LetLang

/-! ## The places of a document -/

def Span.ofDocument? : Json → Option Span
  | .obj [("start", .num start), ("end", .num stop)] => some ⟨start, stop⟩
  | _ => none

namespace Json

mutual

/-- The places of the objects in a document, in the order of its text. -/
def places : Json → List Span
  | .arr items => itemPlaces items
  | .obj members => memberPlaces members
  | _ => []

def itemPlaces : List Json → List Span
  | [] => []
  | j :: js => j.places ++ itemPlaces js

def memberPlaces : List (String × Json) → List Span
  | [] => []
  | (key, j) :: ms =>
    (if key = "pos" then (Span.ofDocument? j).toList else j.places) ++ memberPlaces ms

end

theorem places_object (kind : Node.Kind) (span : Span) (members : List (String × Json)) :
    (kind.object span members).places = span :: memberPlaces members :=
  rfl

theorem memberPlaces_cons {key : String} (other : key ≠ "pos") (j : Json)
    (ms : List (String × Json)) : memberPlaces ((key, j) :: ms) = j.places ++ memberPlaces ms := by
  rw [memberPlaces, if_neg other]

theorem memberPlaces_append (ms ns : List (String × Json)) :
    memberPlaces (ms ++ ns) = memberPlaces ms ++ memberPlaces ns := by
  induction ms with
  | nil => rfl
  | cons m ms ih =>
    obtain ⟨key, j⟩ := m
    rw [List.cons_append, memberPlaces, memberPlaces, ih, List.append_assoc]

theorem memberPlaces_textMember {key : String} (other : key ≠ "pos") (t : Text) :
    memberPlaces (textMember key t) = [] := by
  cases t with
  | nil => rfl
  | cons g t => exact memberPlaces_cons other _ []

theorem memberPlaces_listMember {key : String} (other : key ≠ "pos") (items : List Json) :
    memberPlaces (listMember key items) = itemPlaces items := by
  cases items with
  | nil => rfl
  | cons j js => exact (memberPlaces_cons other _ []).trans (List.append_nil _)

end Json

/-! ## The nodes that have an object -/

namespace Node

/-- The nodes of a walk apart from the names of bindings, which stand right behind them. -/
def withoutBoundNames : List Node → List Node
  | .stmt (.binding name value span) :: _ :: ns =>
    .stmt (.binding name value span) :: withoutBoundNames ns
  | n :: ns => n :: withoutBoundNames ns
  | [] => []

theorem withoutBoundNames_cons {n : Node} (other : n.kind? ≠ some .binding) (ns : List Node) :
    withoutBoundNames (n :: ns) = n :: withoutBoundNames ns := by
  rw [withoutBoundNames]
  rintro name value span m rest rfl
  exact absurd rfl other

/-- The places are those of the nodes, except that a binding is followed by a name whose place is left
out. -/
inductive PlacedAt : List Node → List Span → Prop
  | nil : PlacedAt [] []
  | node {n : Node} {ns : List Node} {span : Span} {spans : List Span}
    (other : n.kind? ≠ some .binding) (place : n.span? = some span) (rest : PlacedAt ns spans) :
    PlacedAt (n :: ns) (span :: spans)
  | binding {ns : List Node} {spans : List Span} (name : Ident) (value : Expr) (span : Span)
    (rest : PlacedAt ns spans) :
    PlacedAt (.stmt (.binding (some name) value span) :: .expr (.ident name) :: ns) (span :: spans)

namespace PlacedAt

theorem append {ms ns : List Node} {spans spans' : List Span} (h : PlacedAt ms spans)
    (h' : PlacedAt ns spans') : PlacedAt (ms ++ ns) (spans ++ spans') := by
  induction h with
  | nil => exact h'
  | node other place _ ih => exact .node other place ih
  | binding name value span _ ih => exact .binding name value span ih

theorem flatMap {ss : List Stmt}
    (h : ∀ s ∈ ss, PlacedAt (Node.stmt s).nodes (Node.stmt s).json.places) :
    PlacedAt ((ss.map Node.stmt).flatMap nodes)
      (Json.itemPlaces (ss.map fun s => (Node.stmt s).json)) := by
  induction ss with
  | nil => exact .nil
  | cons s ss ih =>
    have hs := h s List.mem_cons_self
    exact hs.append (ih fun t ht => h t (List.mem_cons_of_mem s ht))

theorem map_some {ns : List Node} {spans : List Span} (h : PlacedAt ns spans) :
    spans.map some = (withoutBoundNames ns).map span? := by
  induction h with
  | nil => rfl
  | node other place _ ih => rw [withoutBoundNames_cons other, List.map_cons, List.map_cons, ih, place]
  | binding name value span _ ih => exact congrArg (List.cons (some span)) ih

/-- Every binding accounts for one place that is left out. -/
theorem length_add_countP {ns : List Node} {spans : List Span} (h : PlacedAt ns spans) :
    spans.length + ns.countP (fun n => decide (n.kind? = some .binding)) = ns.length := by
  induction h with
  | nil => rfl
  | node other _ _ ih =>
    rw [List.countP_cons_of_neg (by simpa using other), List.length_cons, List.length_cons]
    omega
  | @binding ns spans name value span _ ih =>
    simp only [List.countP_cons, List.length_cons]
    change spans.length + 1 + (ns.countP _ + 0 + 1) = ns.length + 1 + 1
    omega

/-- No place is left out if and only if there is no binding. -/
theorem map_some_eq_iff {ns : List Node} {spans : List Span} (h : PlacedAt ns spans) :
    spans.map some = ns.map span? ↔ ∀ n ∈ ns, n.kind? ≠ some .binding := by
  constructor
  · intro hall
    have hlength := congrArg List.length hall
    rw [List.length_map, List.length_map] at hlength
    have hcount := h.length_add_countP
    have hnone : ns.countP (fun n => decide (n.kind? = some .binding)) = 0 := by omega
    simpa using List.countP_eq_zero.mp hnone
  · intro hnone
    induction h with
    | nil => rfl
    | node _ place _ ih =>
      rw [List.map_cons, List.map_cons, place, ih fun m hm => hnone m (List.mem_cons_of_mem _ hm)]
    | binding => exact absurd rfl (hnone _ List.mem_cons_self)

end PlacedAt

theorem Complete.placedAt_of_below {n : Node} (h : n.Complete) {kind : Kind}
    (hkind : n.kind? = some kind) (other : kind ≠ .binding)
    (below : PlacedAt (n.children.flatMap nodes) (Json.memberPlaces n.members)) :
    PlacedAt n.nodes n.json.places := by
  obtain ⟨_, span, hobject⟩ := h.hasObject
  have present : n.kind? ≠ none := by rw [hkind]; exact Option.some_ne_none kind
  have notBinding : n.kind? ≠ some .binding := by
    rw [hkind]
    exact fun same => other (Option.some.inj same)
  rw [nodes_eq present, hobject.json_eq, Json.places_object]
  exact .node notBinding hobject.span_eq below

end Node

theorem Ident.placedAt (i : Ident) :
    Node.PlacedAt (Node.expr (.ident i)).nodes (Node.expr (.ident i)).json.places := by
  refine (Node.Complete.ident i).placedAt_of_below rfl (by decide) ?_
  rw [Node.members, Json.memberPlaces_textMember (by decide)]
  exact .nil

namespace Node

/-- The document of a complete tree has the places of its nodes without the bound names. -/
theorem Complete.placedAt {n : Node} (h : n.Complete) : PlacedAt n.nodes n.json.places := by
  induction h with
  | program stmts ih =>
    refine (Complete.program stmts).placedAt_of_below rfl (by decide) ?_
    rw [members, Json.memberPlaces_listMember (by decide)]
    exact .flatMap ih
  | @binding value name span bound ih =>
    obtain ⟨kind, place, hobject⟩ := (Complete.binding name span bound).hasObject
    cases hobject.span_eq
    have present : (stmt (.binding (some name) value span)).kind? ≠ none :=
      Option.some_ne_none _
    rw [nodes_eq present, hobject.json_eq, Json.places_object, members,
      Json.memberPlaces_append, Json.memberPlaces_textMember (by decide), List.nil_append,
      Json.memberPlaces_cons (by decide)]
    -- The name is the next node of the walk, and its member of the object has no place.
    exact .binding name value span (ih.append .nil)
  | stated span inner ih =>
    refine (Complete.stated span inner).placedAt_of_below rfl (by decide) ?_
    rw [members, Json.memberPlaces_cons (by decide)]
    exact ih.append .nil
  | ident i => exact i.placedAt
  | number n span => exact (Complete.number n span).placedAt_of_below rfl (by decide) .nil
  | bool b span => exact (Complete.bool b span).placedAt_of_below rfl (by decide) .nil
  | string value quote span =>
    refine (Complete.string value quote span).placedAt_of_below rfl (by decide) ?_
    rw [members, Json.memberPlaces_cons (by decide), Json.memberPlaces_textMember (by decide)]
    exact .nil
  | call span callee argument ihc ihi =>
    refine (Complete.call span callee argument).placedAt_of_below rfl (by decide) ?_
    rw [members, Json.memberPlaces_cons (by decide), Json.memberPlaces_cons (by decide)]
    exact ihc.append (ihi.append .nil)
  | access field span whole ih =>
    refine (Complete.access field span whole).placedAt_of_below rfl (by decide) ?_
    rw [members, Json.memberPlaces_cons (by decide), Json.memberPlaces_cons (by decide)]
    exact ih.append (field.placedAt.append .nil)
  | block span stmts ih =>
    refine (Complete.block span stmts).placedAt_of_below rfl (by decide) ?_
    rw [members, Json.memberPlaces_listMember (by decide)]
    exact .flatMap ih

end Node

/-! ## Parsed programs -/

open Parse (Options)

/-- The text of a parsed program denotes a document with the places of all nodes but the bound names, in
the order of a walk. These are all places if and only if nothing is bound. The encoder can be any that
writes the marks of a document in their order and spells them as JSON. -/
theorem places_of_marshal? {encode : Json.Encoder} {write : Json.Writer}
    (inOrder : encode.InOrder write) (spells : write.Spells) (o : Options) (source : Source)
    {text : List Char} {j : Json}
    (marshaled : (Node.program (parse o source).tree).marshal? encode = some (.ok text))
    (denotes : Json.Denotes text j) :
    j.places.map some =
        (Node.withoutBoundNames (Node.program (parse o source).tree).nodes).map Node.span? ∧
      (j.places.map some = (Node.program (parse o source).tree).nodes.map Node.span? ↔
        ∀ n ∈ (Node.program (parse o source).tree).nodes, n.kind? ≠ some .binding) := by
  have hplaced := (Node.Complete.program (Stmt.AllWellFormed.complete
    (wellFormed_parse o source))).placedAt
  obtain ⟨hdocument, hencoded⟩ := Node.document?_of_marshal? marshaled
  obtain rfl := denotes.inj (Json.denotes_of_encode inOrder spells hdocument hencoded)
  exact ⟨hplaced.map_some, hplaced.map_some_eq_iff⟩

/-- A program that binds nothing has the places of all its nodes in its text. -/
theorem places_of_marshal?_access :
    ∃ (text : List Char) (j : Json),
      (Node.program (parse .all ("a.b".toList.map .char)).tree).marshal? (Json.printer .memory) =
        some (.ok text) ∧
      Json.Denotes text j ∧
      j.places.map some =
        (Node.program (parse .all ("a.b".toList.map .char)).tree).nodes.map Node.span? := by
  have htree : (parse .all ("a.b".toList.map .char)).tree =
      ⟨[.stated (.access (.ident ⟨[.char 'a'], ⟨0, 0⟩⟩) (some ⟨[.char 'b'], ⟨2, 2⟩⟩) ⟨0, 2⟩)
        ⟨0, 2⟩]⟩ := by
    with_unfolding_all rfl
  obtain ⟨text, hmarshal⟩ : ∃ text,
      (Node.program (parse .all ("a.b".toList.map .char)).tree).marshal? (Json.printer .memory) =
        some (.ok text) :=
    ⟨_, congrArg (fun p => (Node.program p).marshal? (Json.printer .memory)) htree⟩
  obtain ⟨hdocument, hencoded⟩ := Node.document?_of_marshal? hmarshal
  have denotes :=
    Json.denotes_of_encode Json.printer_inOrder Json.printMark_spells hdocument hencoded
  refine ⟨text, _, hmarshal, denotes, ?_⟩
  refine (places_of_marshal? Json.printer_inOrder Json.printMark_spells .all _ hmarshal
    denotes).2.mpr ?_
  rw [htree]
  decide

/-- The name of a binding is visited, and its place is not in the text. -/
theorem places_of_marshal?_binding :
    ∃ (text : List Char) (j : Json),
      (Node.program (parse .all ("let a = b".toList.map .char)).tree).marshal? (Json.printer .memory) =
        some (.ok text) ∧
      Json.Denotes text j ∧
      j.places = [⟨0, 8⟩, ⟨0, 8⟩, ⟨8, 8⟩] ∧
      (Node.program (parse .all ("let a = b".toList.map .char)).tree).nodes.map Node.span? =
        [some ⟨0, 8⟩, some ⟨0, 8⟩, some ⟨4, 4⟩, some ⟨8, 8⟩] := by
  have htree : (parse .all ("let a = b".toList.map .char)).tree =
      ⟨[.binding (some ⟨[.char 'a'], ⟨4, 4⟩⟩) (.ident ⟨[.char 'b'], ⟨8, 8⟩⟩) ⟨0, 8⟩]⟩ := by
    with_unfolding_all rfl
  obtain ⟨text, hmarshal⟩ : ∃ text,
      (Node.program (parse .all ("let a = b".toList.map .char)).tree).marshal?
        (Json.printer .memory) = some (.ok text) :=
    ⟨_, congrArg (fun p => (Node.program p).marshal? (Json.printer .memory)) htree⟩
  obtain ⟨hdocument, hencoded⟩ := Node.document?_of_marshal? hmarshal
  refine ⟨text, _, hmarshal,
    Json.denotes_of_encode Json.printer_inOrder Json.printMark_spells hdocument hencoded, ?_⟩
  rw [htree]
  exact ⟨rfl, rfl⟩

end LetLang
