import LetLang.Proofs.Documents
import LetLang.Proofs.JsonText
import LetLang.Proofs.Printer

/-!
# A tree is recovered from its text

The compact text of a complete tree determines the tree, apart from the places of the names that its
bindings bind: a document has the text of such a name and not its place. A text is the text of one
document only, and the tree is read back from the document. The kind of a node tells which members to
expect, and a member that is left out is one that was empty.
-/
namespace LetLang

/-! ## Trees without the places of bound names -/

mutual

def Expr.eraseNameSpans : Expr → Expr
  | .call called input span => .call called.eraseNameSpans input.eraseNameSpans span
  | .access target field span => .access target.eraseNameSpans field span
  | .block ss span => .block (Stmt.eraseNameSpansAll ss) span
  | e => e

def Stmt.eraseNameSpans : Stmt → Stmt
  | .absent => .absent
  | .binding name value span =>
    .binding (name.map (Ident.mapSpan fun _ => ⟨0, 0⟩)) value.eraseNameSpans span
  | .stated value span => .stated value.eraseNameSpans span

def Stmt.eraseNameSpansAll : List Stmt → List Stmt
  | [] => []
  | s :: ss => s.eraseNameSpans :: Stmt.eraseNameSpansAll ss

end

/-- The node with the names that its bindings bind put at the very start. -/
def Node.eraseNameSpans : Node → Node
  | .program p => .program ⟨Stmt.eraseNameSpansAll p.stmts⟩
  | .stmt s => .stmt s.eraseNameSpans
  | .expr e => .expr e.eraseNameSpans
  | n => n

/-! ## Reading a document back -/

namespace Node

def toExpr : Node → Expr
  | .expr e => e
  | _ => .absent

def toStmt : Node → Stmt
  | .stmt s => s
  | _ => .absent

def toIdent? : Node → Option Ident
  | .expr (.ident i) => some i
  | _ => none

def Kind.ofLabel? (label : Text) : Option Kind :=
  [.program, .binding, .stated, .ident, .call, .access, .block, .number, .bool, .string, .foreign].find?
    fun kind => decide (Text.ofString kind.label = label)

theorem Kind.ofLabel?_label (kind : Kind) : ofLabel? (Text.ofString kind.label) = some kind := by
  cases kind <;> decide

end Node

namespace Json

mutual

/-- The tree with this document. The names of bindings are put at the very start, and what is no
document of a tree is read as a missing name. -/
def toNode : Json → Node
  | .obj ((_, .str label) :: (_, .obj [(_, .num start), (_, .num stop)]) :: members) =>
    membersToNode (Node.Kind.ofLabel? label) ⟨start, stop⟩ members
  | _ => .missingName

/-- The tree of a kind at a place with these members. -/
def membersToNode (kind : Option Node.Kind) (span : Span) (members : List (String × Json)) : Node :=
  match kind, members with
  | some .program, [] => .program ⟨[]⟩
  | some .program, [(_, .arr items)] => .program ⟨toStmts items⟩
  | some .binding, [(_, value)] =>
    .stmt (.binding (some ⟨[], ⟨0, 0⟩⟩) value.toNode.toExpr span)
  | some .binding, [(_, .str name), (_, value)] =>
    .stmt (.binding (some ⟨name, ⟨0, 0⟩⟩) value.toNode.toExpr span)
  | some .stated, [(_, value)] => .stmt (.stated value.toNode.toExpr span)
  | some .ident, [] => .expr (.ident ⟨[], span⟩)
  | some .ident, [(_, .str name)] => .expr (.ident ⟨name, span⟩)
  | some .number, [(_, .num n)] => .expr (.number (UInt32.ofNat n.toNat) span)
  | some .bool, [(_, .bool b)] => .expr (.bool b span)
  | some .string, [(_, .str value)] => .expr (.string value none span)
  | some .string, [(_, .str value), (_, .str [.char c])] =>
    .expr (.string value (some (.char c)) span)
  | some .call, [(_, called), (_, input)] =>
    .expr (.call called.toNode.toExpr input.toNode.toExpr span)
  | some .access, [(_, target), (_, field)] =>
    .expr (.access target.toNode.toExpr field.toNode.toIdent? span)
  | some .block, [] => .expr (.block [] span)
  | some .block, [(_, .arr items)] => .expr (.block (toStmts items) span)
  | _, _ => .missingName

def toStmts : List Json → List Stmt
  | [] => []
  | j :: js => j.toNode.toStmt :: toStmts js

end

theorem toNode_object (kind : Node.Kind) (span : Span) (members : List (String × Json)) :
    (kind.object span members).toNode = membersToNode (some kind) span members := by
  change membersToNode (Node.Kind.ofLabel? (Text.ofString kind.label)) span members = _
  rw [Node.Kind.ofLabel?_label]

theorem toStmts_map {ss : List Stmt}
    (h : ∀ s ∈ ss, (Node.stmt s).json.toNode = (Node.stmt s).eraseNameSpans) :
    toStmts (ss.map fun s => (Node.stmt s).json) = Stmt.eraseNameSpansAll ss := by
  induction ss with
  | nil => rfl
  | cons s ss ih =>
    have hs := h s List.mem_cons_self
    have hss := ih fun t ht => h t (List.mem_cons_of_mem s ht)
    change _ :: toStmts _ = _ :: _
    rw [hss, hs]
    rfl

end Json

namespace Node

theorem Complete.toNode_json_eq {n : Node} (h : n.Complete) :
    n.json.toNode = Json.membersToNode n.kind? (n.span?.getD ⟨0, 0⟩) n.members := by
  obtain ⟨kind, span, hobject⟩ := h.hasObject
  rw [hobject.json_eq, Json.toNode_object, hobject.kind_eq, hobject.span_eq, Option.getD_some]

/-- A complete tree is read back from its document, up to the places of bound names. -/
theorem Complete.toNode_json {n : Node} (h : n.Complete) : n.json.toNode = n.eraseNameSpans := by
  induction h with
  | @program p stmts ih =>
    rw [(Complete.program stmts).toNode_json_eq]
    have hstmts := Json.toStmts_map ih
    obtain ⟨ss⟩ := p
    cases ss with
    | nil => rfl
    | cons s ss => exact congrArg (fun ss => Node.program ⟨ss⟩) hstmts
  | binding name span bound ih =>
    rw [(Complete.binding name span bound).toNode_json_eq]
    -- The place is dropped on both sides, and an empty name is left out of the object.
    obtain ⟨name, place⟩ := name
    have hname := congrArg (fun m => stmt (.binding (some ⟨name, ⟨0, 0⟩⟩) m.toExpr span)) ih
    cases name with
    | nil => exact hname
    | cons g t => exact hname
  | stated span inner ih =>
    rw [(Complete.stated span inner).toNode_json_eq]
    exact congrArg (fun m => stmt (.stated m.toExpr span)) ih
  | ident i =>
    rw [(Complete.ident i).toNode_json_eq]
    obtain ⟨name, place⟩ := i
    cases name <;> rfl
  | number n span =>
    rw [(Complete.number n span).toNode_json_eq]
    exact congrArg (fun n => expr (.number n span)) UInt32.ofNat_toNat
  | bool b span => rw [(Complete.bool b span).toNode_json_eq]; rfl
  | string value quote span =>
    rw [(Complete.string value quote span).toNode_json_eq]
    cases quote <;> rfl
  | call span callee argument ihc ihi =>
    rw [(Complete.call span callee argument).toNode_json_eq]
    change expr (.call (toExpr _) (toExpr _) span) = _
    rw [ihc, ihi]
    rfl
  | access field span whole ih =>
    rw [(Complete.access field span whole).toNode_json_eq]
    have hfield : (expr (.ident field)).json.toNode = expr (.ident field) := by
      rw [(Complete.ident field).toNode_json_eq]
      obtain ⟨name, place⟩ := field
      cases name <;> rfl
    change expr (.access (toExpr _) (toIdent? _) span) = _
    rw [ih, hfield]
    rfl
  | @block ss span stmts ih =>
    rw [(Complete.block span stmts).toNode_json_eq]
    have hstmts := Json.toStmts_map ih
    cases ss with
    | nil => rfl
    | cons s ss => exact congrArg (fun ss => expr (.block ss span)) hstmts

end Node

/-! ## The places of bound names are nowhere in a document -/

theorem Stmt.eraseNameSpansAll_eq_map (ss : List Stmt) :
    Stmt.eraseNameSpansAll ss = ss.map Stmt.eraseNameSpans := by
  induction ss with
  | nil => rfl
  | cons s ss ih => rw [Stmt.eraseNameSpansAll, ih, List.map_cons]

mutual

theorem Expr.document?_eraseNameSpans (e : Expr) : e.eraseNameSpans.document? = e.document? := by
  cases e with
  | absent | ident | number | bool | string => rfl
  | call called input span =>
    simp only [Expr.eraseNameSpans, Expr.document?, called.document?_eraseNameSpans,
      input.document?_eraseNameSpans]
  | access target field span =>
    simp only [Expr.eraseNameSpans, Expr.document?, target.document?_eraseNameSpans]
  | block ss span =>
    simp only [Expr.eraseNameSpans, Expr.document?, Stmt.documents?_eraseNameSpansAll ss]

theorem Stmt.document?_eraseNameSpans (s : Stmt) : s.eraseNameSpans.document? = s.document? := by
  cases s with
  | absent => rfl
  | binding name value span =>
    simp only [Stmt.eraseNameSpans, Stmt.document?, value.document?_eraseNameSpans]
    cases name <;> cases value.document? <;> rfl
  | stated value span =>
    simp only [Stmt.eraseNameSpans, Stmt.document?, value.document?_eraseNameSpans]

theorem Stmt.documents?_eraseNameSpansAll (ss : List Stmt) :
    Stmt.documents? (Stmt.eraseNameSpansAll ss) = Stmt.documents? ss := by
  cases ss with
  | nil => rfl
  | cons s ss =>
    simp only [Stmt.eraseNameSpansAll, Stmt.documents?, s.document?_eraseNameSpans,
      Stmt.documents?_eraseNameSpansAll ss]

end

theorem Program.span?_eraseNameSpansAll (ss : List Stmt) :
    Program.span? ⟨Stmt.eraseNameSpansAll ss⟩ = Program.span? ⟨ss⟩ := by
  have hspan (s : Stmt) : s.eraseNameSpans.span = s.span := by cases s <;> rfl
  have habsent (s : Stmt) : s.eraseNameSpans.isAbsent = s.isAbsent := by cases s <;> rfl
  simp only [Program.span?, Stmt.eraseNameSpansAll_eq_map, List.head?_map, List.getLast?_map]
  cases ss.head? <;> cases ss.getLast? <;> simp [hspan, habsent]

namespace Node

theorem document?_eraseNameSpans (n : Node) : n.eraseNameSpans.document? = n.document? := by
  cases n with
  | program p =>
    simp only [eraseNameSpans, document?, Program.span?_eraseNameSpansAll,
      Stmt.documents?_eraseNameSpansAll]
  | stmt s => exact s.document?_eraseNameSpans
  | expr e => exact e.document?_eraseNameSpans
  | missingName | foreign => rfl

/-- Two complete trees have the same text, byte by byte, if and only if they are equal up to the places
of the names that their bindings bind. The encoder can be any that writes the marks of a document in
their order and spells them as JSON. -/
theorem bytes_eq_iff_eraseNameSpans_eq {encode : Json.Encoder} {write : Json.Writer}
    (inOrder : encode.InOrder write) (spells : write.Spells) {n n' : Node} (complete : n.Complete)
    (complete' : n'.Complete) {text text' : List Char}
    (marshaled : n.marshal? encode = some (.ok text))
    (marshaled' : n'.marshal? encode = some (.ok text')) :
    (Text.ofChars text).bytes = (Text.ofChars text').bytes ↔
      n.eraseNameSpans = n'.eraseNameSpans := by
  obtain ⟨hdocument, hencoded⟩ := document?_of_marshal? marshaled
  obtain ⟨hdocument', hencoded'⟩ := document?_of_marshal? marshaled'
  constructor
  · intro hbytes
    obtain rfl := Text.ofChars_of_bytes_eq hbytes
    have denotes := Json.denotes_of_encode inOrder spells hdocument hencoded
    have denotes' := Json.denotes_of_encode inOrder spells hdocument' hencoded'
    calc n.eraseNameSpans
      _ = n.json.toNode := complete.toNode_json.symm
      _ = n'.json.toNode := by rw [denotes.inj denotes']
      _ = n'.eraseNameSpans := complete'.toNode_json
  · intro herased
    have hsame : n.document? = n'.document? := by
      rw [← n.document?_eraseNameSpans, herased, n'.document?_eraseNameSpans]
    have hmarshal : n.marshal? encode = n'.marshal? encode := congrArg (Option.map _) hsame
    rw [marshaled, marshaled'] at hmarshal
    cases hmarshal
    rfl

/-- A name that has moved leaves the text of its binding as it is. -/
theorem bytes_eq_of_moved_name :
    ∃ text : List Char, ∃ name name' : Ident, name ≠ name' ∧
      (stmt (.binding (some name) (.bool true ⟨8, 11⟩) ⟨0, 11⟩)).marshal? (Json.printer .memory) =
        some (.ok text) ∧
      (stmt (.binding (some name') (.bool true ⟨8, 11⟩) ⟨0, 11⟩)).marshal? (Json.printer .memory) =
        some (.ok text) ∧
      (stmt (.binding (some name) (.bool true ⟨8, 11⟩) ⟨0, 11⟩)).eraseNameSpans =
        (stmt (.binding (some name') (.bool true ⟨8, 11⟩) ⟨0, 11⟩)).eraseNameSpans := by
  have complete (name : Ident) :
      Complete (stmt (.binding (some name) (.bool true ⟨8, 11⟩) ⟨0, 11⟩)) :=
    .binding name ⟨0, 11⟩ (.bool true ⟨8, 11⟩)
  refine ⟨_, ⟨[.char 'a'], ⟨4, 4⟩⟩, ⟨[.char 'a'], ⟨5, 5⟩⟩, by decide, rfl, rfl, ?_⟩
  exact (bytes_eq_iff_eraseNameSpans_eq Json.printer_inOrder Json.printMark_spells (complete _)
    (complete _) rfl rfl).mp rfl

end Node

end LetLang
