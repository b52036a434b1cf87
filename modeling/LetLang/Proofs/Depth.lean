import LetLang.Proofs.Documents
import LetLang.Proofs.JsonText
import LetLang.Proofs.Printer

/-!
# How deep the document of a tree is

Encoding a parsed tree can only fail at the depth of its document. Nothing is missing in such a tree,
so it has a document, and its names and strings are made of characters, so they can be written. The
depth of the document can be read off the tree: the place of a node is an object of its own inside the
object of the node, and the statements of a block stand in an array inside the object of the block.
-/
namespace LetLang

namespace Json

/-! ## Refusals of valid documents -/

mutual

/-- How many arrays and objects of a document are open at once, where they are the most. -/
def depth : Json → Nat
  | .arr items => 1 + itemsDepth items
  | .obj members => 1 + membersDepth members
  | _ => 0

def itemsDepth : List Json → Nat
  | [] => 0
  | j :: js => max j.depth (itemsDepth js)

def membersDepth : List (String × Json) → Nat
  | [] => 0
  | (_, j) :: ms => max j.depth (membersDepth ms)

end

mutual

/-- No text of the document has a stray byte. -/
def Valid : Json → Prop
  | .str s => s.chars?.isSome
  | .arr items => AllValid items
  | .obj members => MembersValid members
  | _ => True

def AllValid : List Json → Prop
  | [] => True
  | j :: js => j.Valid ∧ AllValid js

def MembersValid : List (String × Json) → Prop
  | [] => True
  | (_, j) :: ms => j.Valid ∧ MembersValid ms

end

/-- What becomes of the marks behind a part of a document, if so many arrays and objects are open in that
part at once. -/
def refusalAt? (most : Nat) (rest : Option String) : Option String :=
  if most ≤ 10000 then rest else some "jsontext: exceeded max depth"

/-- Of two parts side by side, the deeper one decides. -/
theorem refusalAt?_max (d m n : Nat) (rest : Option String) :
    refusalAt? (d + m) (refusalAt? (d + n) rest) = refusalAt? (d + max m n) rest := by
  unfold refusalAt?
  by_cases hm : d + m ≤ 10000
  · by_cases hn : d + n ≤ 10000
    · rw [if_pos hm, if_pos hn, if_pos (by omega)]
    · rw [if_pos hm, if_neg hn, if_neg (by omega)]
  · rw [if_neg hm, if_neg (by omega)]

/-- An array or object needs room for itself before its inside is looked at. -/
theorem firstRefusal?_opening {isObject : Bool} {d inner : Nat} {ms : List Mark} {rest : Option String}
    (inside : d < 10000 → firstRefusal? (d + 1) ms = refusalAt? (d + 1 + inner) rest) :
    firstRefusal? d (.opening isObject :: ms) = refusalAt? (d + (1 + inner)) rest := by
  by_cases hd : d < 10000
  · have accepted : (Mark.opening isObject).refusal? d = none := if_pos hd
    rw [firstRefusal?, accepted, ← Nat.add_assoc]
    exact inside hd
  · have refused : (Mark.opening isObject).refusal? d = some "jsontext: exceeded max depth" :=
      if_neg hd
    rw [firstRefusal?, refused, refusalAt?, if_neg (by omega)]

mutual

/-- The marks of a valid document are refused for their depth only. -/
theorem firstRefusal?_marks {j : Json} (valid : j.Valid) {d : Nat} (room : d ≤ 10000)
    (ms : List Mark) :
    firstRefusal? d (j.marks ++ ms) = refusalAt? (d + j.depth) (firstRefusal? d ms) := by
  cases j with
  | null | bool | num => exact (if_pos room).symm
  | str s =>
    have accepted : (Mark.str s).refusal? d = none := if_pos valid
    rw [marks, List.singleton_append, firstRefusal?, accepted]
    exact (if_pos room).symm
  | arr items =>
    rw [marks, List.cons_append, List.append_assoc]
    exact firstRefusal?_opening fun hd => firstRefusal?_itemMarks valid hd _
  | obj members =>
    rw [marks, List.cons_append, List.append_assoc]
    exact firstRefusal?_opening fun hd => firstRefusal?_memberMarks valid hd _

theorem firstRefusal?_itemMarks {js : List Json} (valid : AllValid js) {d : Nat} (room : d ≤ 10000)
    (ms : List Mark) :
    firstRefusal? d (itemMarks js ++ ms) = refusalAt? (d + itemsDepth js) (firstRefusal? d ms) := by
  cases js with
  | nil => exact (if_pos room).symm
  | cons j js =>
    rw [itemMarks, List.append_assoc, firstRefusal?_marks valid.1 room,
      firstRefusal?_itemMarks valid.2 room, refusalAt?_max, itemsDepth]

theorem firstRefusal?_memberMarks {members : List (String × Json)} (valid : MembersValid members)
    {d : Nat} (room : d ≤ 10000) (ms : List Mark) :
    firstRefusal? d (memberMarks members ++ ms) =
      refusalAt? (d + membersDepth members) (firstRefusal? d ms) := by
  cases members with
  | nil => exact (if_pos room).symm
  | cons member members =>
    obtain ⟨key, j⟩ := member
    change firstRefusal? d (j.marks ++ memberMarks members ++ ms) = _
    rw [List.append_assoc, firstRefusal?_marks valid.1 room, firstRefusal?_memberMarks valid.2 room,
      refusalAt?_max, membersDepth]

end

theorem firstRefusal?_of_valid {j : Json} (valid : j.Valid) :
    firstRefusal? 0 j.marks =
      if j.depth ≤ 10000 then none else some "jsontext: exceeded max depth" := by
  have h := firstRefusal?_marks valid (Nat.zero_le _) []
  rw [List.append_nil, Nat.zero_add] at h
  exact h

/-! ## Objects of nodes -/

theorem depth_object (kind : Node.Kind) (span : Span) (members : List (String × Json)) :
    (kind.object span members).depth = 1 + max 1 (membersDepth members) := by
  change 1 + max 0 (max (1 + max 0 (max 0 0)) (membersDepth members)) = _
  omega

theorem valid_object {kind : Node.Kind} {span : Span} {members : List (String × Json)}
    (valid : MembersValid members) : (kind.object span members).Valid := by
  have hlabel : (Text.ofString kind.label).chars?.isSome := by simp [Text.ofString]
  exact ⟨hlabel, ⟨trivial, trivial, trivial⟩, valid⟩

theorem membersDepth_append (ms ns : List (String × Json)) :
    membersDepth (ms ++ ns) = max (membersDepth ms) (membersDepth ns) := by
  induction ms with
  | nil => simp [membersDepth]
  | cons m ms ih =>
    obtain ⟨k, j⟩ := m
    rw [List.cons_append, membersDepth, membersDepth, ih, Nat.max_assoc]

theorem membersValid_append {ms ns : List (String × Json)} (valid : MembersValid ms)
    (valid' : MembersValid ns) : MembersValid (ms ++ ns) := by
  induction ms with
  | nil => exact valid'
  | cons m ms ih => exact ⟨valid.1, ih valid.2⟩

theorem membersDepth_textMember (key : String) (t : Text) : membersDepth (textMember key t) = 0 := by
  cases t <;> rfl

theorem membersValid_textMember (key : String) {t : Text} (valid : t.chars?.isSome) :
    MembersValid (textMember key t) := by
  cases t with
  | nil => trivial
  | cons g t => exact ⟨valid, trivial⟩

/-- An object with a list of statements is two levels deeper than these, also if there are none. -/
theorem one_add_membersDepth_listMember (key : String) (items : List Json) :
    1 + max 1 (membersDepth (listMember key items)) = 2 + itemsDepth items := by
  cases items with
  | nil => rfl
  | cons j js =>
    change 1 + max 1 (max (1 + itemsDepth (j :: js)) 0) = _
    omega

theorem membersValid_listMember (key : String) {items : List Json} (valid : AllValid items) :
    MembersValid (listMember key items) := by
  cases items with
  | nil => trivial
  | cons j js => exact ⟨valid, trivial⟩

end Json

/-! ## The depth of a tree -/

mutual

/-- The depth of the document of an expression. -/
def Expr.jsonDepth : Expr → Nat
  | .absent => 0
  | .ident _ | .number _ _ | .bool _ _ | .string _ _ _ => 2
  | .call called input _ => 1 + max called.jsonDepth input.jsonDepth
  | .access target _ _ => 1 + max target.jsonDepth 2
  | .block ss _ => 2 + Stmt.jsonDepths ss

def Stmt.jsonDepth : Stmt → Nat
  | .absent => 0
  | .binding _ value _ => 1 + value.jsonDepth
  | .stated value _ => 1 + value.jsonDepth

/-- The depth of the deepest statement, zero if there is none. -/
def Stmt.jsonDepths : List Stmt → Nat
  | [] => 0
  | s :: ss => max s.jsonDepth (Stmt.jsonDepths ss)

end

def Node.jsonDepth : Node → Nat
  | .program p => 2 + Stmt.jsonDepths p.stmts
  | .stmt s => s.jsonDepth
  | .expr e => e.jsonDepth
  | .missingName => 0
  | .foreign _ _ _ => 2

theorem Json.itemsDepth_map {ss : List Stmt}
    (h : ∀ s ∈ ss, (Node.stmt s).json.depth = (Node.stmt s).jsonDepth) :
    itemsDepth (ss.map fun s => (Node.stmt s).json) = Stmt.jsonDepths ss := by
  induction ss with
  | nil => rfl
  | cons s ss ih =>
    have hs := h s List.mem_cons_self
    rw [List.map_cons, itemsDepth, hs, ih fun t ht => h t (List.mem_cons_of_mem s ht)]
    rfl

namespace Node

theorem Complete.depth_json_eq {n : Node} (h : n.Complete) :
    n.json.depth = 1 + max 1 (Json.membersDepth n.members) := by
  obtain ⟨kind, span, hobject⟩ := h.hasObject
  rw [hobject.json_eq, Json.depth_object]

/-- The depth of the document of a complete tree is the depth of the tree. -/
theorem Complete.depth_json {n : Node} (h : n.Complete) : n.json.depth = n.jsonDepth := by
  -- The place is an object inside each object, so the children decide the depth of a node.
  have lower {m : Node} (hm : m.Complete) : 2 ≤ m.json.depth := by
    rw [hm.depth_json_eq]
    omega
  induction h with
  | program stmts ih =>
    rw [(Complete.program stmts).depth_json_eq, members, Json.one_add_membersDepth_listMember,
      Json.itemsDepth_map ih]
    rfl
  | @binding value name span bound ih =>
    have hlower := lower bound
    rw [(Complete.binding name span bound).depth_json_eq, members, Json.membersDepth_append,
      Json.membersDepth_textMember]
    change 1 + max 1 (max 0 (max (expr value).json.depth 0)) = 1 + (expr value).jsonDepth
    omega
  | @stated value span inner ih =>
    have hlower := lower inner
    rw [(Complete.stated span inner).depth_json_eq]
    change 1 + max 1 (max (expr value).json.depth 0) = 1 + (expr value).jsonDepth
    omega
  | ident i =>
    rw [(Complete.ident i).depth_json_eq, members, Json.membersDepth_textMember]
    rfl
  | number n span => exact (Complete.number n span).depth_json_eq
  | bool b span => exact (Complete.bool b span).depth_json_eq
  | string value quote span =>
    rw [(Complete.string value quote span).depth_json_eq, members, Json.membersDepth,
      Json.membersDepth_textMember]
    rfl
  | @call called input span callee argument ihc ihi =>
    have hlower := lower callee
    rw [(Complete.call span callee argument).depth_json_eq]
    change 1 + max 1 (max (expr called).json.depth (max (expr input).json.depth 0)) =
      1 + max (expr called).jsonDepth (expr input).jsonDepth
    omega
  | @access target field span whole ih =>
    have hfield : (expr (.ident field)).json.depth = 2 := by
      rw [(Complete.ident field).depth_json_eq, members, Json.membersDepth_textMember]
      rfl
    rw [(Complete.access field span whole).depth_json_eq]
    change 1 + max 1 (max (expr target).json.depth (max (expr (.ident field)).json.depth 0)) =
      1 + max (expr target).jsonDepth 2
    omega
  | block span stmts ih =>
    rw [(Complete.block span stmts).depth_json_eq, members, Json.one_add_membersDepth_listMember,
      Json.itemsDepth_map ih]
    rfl

end Node

/-! ## The texts of a well-formed tree -/

open Parse (Options)

theorem Ident.WellFormed.valid_name {i : Ident} (h : i.WellFormed) : i.name.chars?.isSome := by
  obtain ⟨cs, hname, _⟩ := h
  rw [hname, Text.chars?_ofChars]
  rfl

theorem Text.valid_ofDelimiter (quote : Option SourceChar) : (ofDelimiter quote).chars?.isSome := by
  cases quote with
  | none => rfl
  | some r => simp [ofDelimiter, ofSource]

theorem Stmt.AllWellFormed.of_mem {o : Options} {ss : List Stmt} (h : Stmt.AllWellFormed o ss)
    {s : Stmt} (hs : s ∈ ss) : s.WellFormed o := by
  induction ss with
  | nil => cases hs
  | cons t ss ih =>
    cases hs with
    | head => exact h.1
    | tail _ hs => exact ih h.2 hs

theorem Json.allValid_map {ss : List Stmt} (h : ∀ s ∈ ss, (Node.stmt s).json.Valid) :
    AllValid (ss.map fun s => (Node.stmt s).json) := by
  induction ss with
  | nil => trivial
  | cons s ss ih =>
    exact ⟨h s List.mem_cons_self, ih fun t ht => h t (List.mem_cons_of_mem s ht)⟩

namespace Node

theorem Complete.valid_of_members {n : Node} (h : n.Complete)
    (valid : Json.MembersValid n.members) : n.json.Valid := by
  obtain ⟨kind, span, hobject⟩ := h.hasObject
  rw [hobject.json_eq]
  exact Json.valid_object valid

theorem Complete.valid_json {o : Options} {n : Node} (h : n.Complete) (wf : n.WellFormed o) :
    n.json.Valid := by
  induction h with
  | program stmts ih =>
    refine (Complete.program stmts).valid_of_members (Json.membersValid_listMember _ ?_)
    exact Json.allValid_map fun s hs => ih s hs (Stmt.AllWellFormed.of_mem wf hs)
  | binding name span bound ih =>
    obtain ⟨⟨_, heq, hname⟩, hvalue⟩ := wf
    cases heq
    refine (Complete.binding name span bound).valid_of_members (Json.membersValid_append ?_ ?_)
    · exact Json.membersValid_textMember _ hname.valid_name
    · exact ⟨ih hvalue, trivial⟩
  | stated span inner ih => exact (Complete.stated span inner).valid_of_members ⟨ih wf, trivial⟩
  | ident i =>
    have hname : i.WellFormed := wf
    exact (Complete.ident i).valid_of_members (Json.membersValid_textMember _ hname.valid_name)
  | number n span => exact (Complete.number n span).valid_of_members ⟨trivial, trivial⟩
  | bool b span => exact (Complete.bool b span).valid_of_members ⟨trivial, trivial⟩
  | string value quote span =>
    obtain ⟨_, cs, _, hvalue, _⟩ := wf
    have hvalid : value.chars?.isSome := by rw [hvalue, Text.chars?_ofChars]; rfl
    exact (Complete.string value quote span).valid_of_members
      ⟨hvalid, Json.membersValid_textMember _ (Text.valid_ofDelimiter _)⟩
  | call span callee argument ihc ihi =>
    obtain ⟨_, hcalled, hinput⟩ := wf
    exact (Complete.call span callee argument).valid_of_members ⟨ihc hcalled, ihi hinput, trivial⟩
  | access field span whole ih =>
    obtain ⟨_, _, htarget, _, heq, hfield⟩ := wf
    cases heq
    have hvalid : (expr (.ident field)).json.Valid :=
      (Complete.ident field).valid_of_members (Json.membersValid_textMember _ hfield.valid_name)
    exact (Complete.access field span whole).valid_of_members ⟨ih htarget, hvalid, trivial⟩
  | block span stmts ih =>
    refine (Complete.block span stmts).valid_of_members (Json.membersValid_listMember _ ?_)
    exact Json.allValid_map fun s hs => ih s hs (Stmt.AllWellFormed.of_mem wf.2 hs)

/-- The node has a document, which is encoded in both modes if the tree is not too deep, and in neither
mode otherwise, for that reason. -/
def EncodedUnlessTooDeep (encode : Json.Encoder) (n : Node) : Prop :=
  (n.jsonDepth ≤ 10000 →
    (∃ line, n.marshal? encode = some (.ok line)) ∧
      ∃ lines, n.marshalIndented? encode = some (.ok lines)) ∧
  (10000 < n.jsonDepth →
    n.marshal? encode = some (.error "could not marshal json: jsontext: exceeded max depth") ∧
      n.marshalIndented? encode =
        some (.error "could not marshal json: jsontext: exceeded max depth"))

theorem WellFormed.encodedUnlessTooDeep {encode : Json.Encoder} {write : Json.Writer}
    (inOrder : encode.InOrder write) (refuses : write.Refuses) {o : Options} {n : Node}
    (h : n.WellFormed o) : n.EncodedUnlessTooDeep encode := by
  obtain ⟨_, _, hobject⟩ := h.complete.hasObject
  have hj := hobject.document_eq
  have split : n.json.marks = [] ++ n.json.marks := rfl
  have hfirst := Json.firstRefusal?_of_valid (h.complete.valid_json h)
  rw [h.complete.depth_json] at hfirst
  rw [EncodedUnlessTooDeep, marshal?, marshalIndented?, hj, Option.map_some, Option.map_some,
    inOrder .compact n _ hj, inOrder .indented n _ hj]
  constructor
  · intro hdepth
    rw [if_pos hdepth] at hfirst
    obtain ⟨line, hline⟩ := refuses.exists_run_eq_ok hj split hfirst .compact
    obtain ⟨lines, hlines⟩ := refuses.exists_run_eq_ok hj split hfirst .indented
    rw [hline, hlines]
    exact ⟨⟨line, rfl⟩, lines, rfl⟩
  · intro hdepth
    rw [if_neg (Nat.not_le_of_lt hdepth)] at hfirst
    rw [refuses.run_eq_error hj split hfirst .compact, refuses.run_eq_error hj split hfirst .indented]
    exact ⟨rfl, rfl⟩

end Node

/-- What is parsed is encoded unless it is too deep, from any source and whether or not the parse went
to its end, by every encoder that writes the marks in their order and refuses them for their depth and
for stray bytes only. -/
theorem parsed_trees_are_encodedUnlessTooDeep {encode : Json.Encoder} {write : Json.Writer}
    (inOrder : encode.InOrder write) (refuses : write.Refuses) (o : Options) (source : Source) :
    (Node.program (parse o source).tree).EncodedUnlessTooDeep encode ∧
      ∀ x, (parseExpression o source).tree = some x → (Node.expr x).EncodedUnlessTooDeep encode := by
  have hprogram : (Node.program (parse o source).tree).WellFormed o := wellFormed_parse o source
  refine ⟨hprogram.encodedUnlessTooDeep inOrder refuses, fun x hx => ?_⟩
  have hexpr : (Node.expr x).WellFormed o := wellFormed_parseExpression hx
  exact hexpr.encodedUnlessTooDeep inOrder refuses

/-! ## Programs of every depth -/

mutual

theorem Expr.jsonDepth_mapSpan (f : Span → Span) (e : Expr) :
    (e.mapSpan f).jsonDepth = e.jsonDepth := by
  cases e with
  | absent | ident | number | bool | string => rfl
  | call called input span =>
    simp only [Expr.mapSpan, Expr.jsonDepth, called.jsonDepth_mapSpan f, input.jsonDepth_mapSpan f]
  | access target field span =>
    simp only [Expr.mapSpan, Expr.jsonDepth, target.jsonDepth_mapSpan f]
  | block ss span => simp only [Expr.mapSpan, Expr.jsonDepth, Stmt.jsonDepths_mapSpanAll f ss]

theorem Stmt.jsonDepth_mapSpan (f : Span → Span) (s : Stmt) :
    (s.mapSpan f).jsonDepth = s.jsonDepth := by
  cases s with
  | absent => rfl
  | binding name value span =>
    simp only [Stmt.mapSpan, Stmt.jsonDepth, value.jsonDepth_mapSpan f]
  | stated value span => simp only [Stmt.mapSpan, Stmt.jsonDepth, value.jsonDepth_mapSpan f]

theorem Stmt.jsonDepths_mapSpanAll (f : Span → Span) (ss : List Stmt) :
    Stmt.jsonDepths (Stmt.mapSpanAll f ss) = Stmt.jsonDepths ss := by
  cases ss with
  | nil => rfl
  | cons s ss =>
    simp only [Stmt.mapSpanAll, Stmt.jsonDepths, s.jsonDepth_mapSpan f,
      Stmt.jsonDepths_mapSpanAll f ss]

end

/-- Calls inside the inputs of calls. -/
def Expr.nestedCalls : Nat → Expr
  | 0 => .bool true ⟨0, 0⟩
  | k + 1 => .call (.bool true ⟨0, 0⟩) (nestedCalls k) ⟨0, 0⟩

theorem Expr.wellFormed_nestedCalls (o : Options) (k : Nat) : (nestedCalls k).WellFormed o := by
  induction k with
  | zero => trivial
  | succ k ih => exact ⟨rfl, trivial, ih⟩

theorem Expr.jsonDepth_nestedCalls (k : Nat) : (nestedCalls k).jsonDepth = k + 2 := by
  induction k with
  | zero => rfl
  | succ k ih =>
    change 1 + max 2 (nestedCalls k).jsonDepth = _
    omega

/-- Some programs are parsed to the end and too deep, and no depth above four is passed over. -/
theorem exists_parse_of_jsonDepth (o : Options) (k : Nat) :
    ∃ text : Text, (parse o text.toSource).error? = none ∧
      (Node.program (parse o text.toSource).tree).jsonDepth = k + 5 := by
  have hwf : Stmt.AllWellFormed o [.stated (.nestedCalls k) ⟨0, 0⟩] :=
    ⟨Expr.wellFormed_nestedCalls o k, trivial⟩
  obtain ⟨text, -, herror, hsame⟩ := parse_text_of_wellFormed (p := ⟨_⟩) hwf .multiLine []
  refine ⟨text, herror, ?_⟩
  have hdepth := congrArg (fun p => (Node.program p).jsonDepth) hsame
  change 2 + Stmt.jsonDepths (Stmt.mapSpanAll _ _) = 2 + Stmt.jsonDepths (Stmt.mapSpanAll _ _) at hdepth
  rw [Stmt.jsonDepths_mapSpanAll, Stmt.jsonDepths_mapSpanAll] at hdepth
  have hcalls := Expr.jsonDepth_nestedCalls k
  change 2 + Stmt.jsonDepths (parse o text.toSource).tree.stmts = k + 5
  rw [hdepth]
  change 2 + max (1 + (Expr.nestedCalls k).jsonDepth) 0 = k + 5
  omega

/-- The depth at which encoding begins to fail is met exactly. -/
theorem parsed_trees_are_encodedUnlessTooDeep_nestedCalls :
    (∃ (text : Text) (line : List Char), (parse .all text.toSource).error? = none ∧
      (Node.program (parse .all text.toSource).tree).jsonDepth = 10000 ∧
      (Node.program (parse .all text.toSource).tree).marshal? (Json.printer .memory) =
        some (.ok line)) ∧
    ∃ text : Text, (parse .all text.toSource).error? = none ∧
      (Node.program (parse .all text.toSource).tree).jsonDepth = 10001 ∧
      (Node.program (parse .all text.toSource).tree).marshal? (Json.printer .memory) =
        some (.error "could not marshal json: jsontext: exceeded max depth") := by
  constructor
  · obtain ⟨text, herror, hdepth⟩ := exists_parse_of_jsonDepth .all 9995
    have hencoded := (parsed_trees_are_encodedUnlessTooDeep Json.printer_inOrder
      Json.printMark_refuses .all text.toSource).1
    obtain ⟨line, hline⟩ := (hencoded.1 (Nat.le_of_eq hdepth)).1
    exact ⟨text, line, herror, hdepth, hline⟩
  · obtain ⟨text, herror, hdepth⟩ := exists_parse_of_jsonDepth .all 9996
    have hencoded := (parsed_trees_are_encodedUnlessTooDeep Json.printer_inOrder
      Json.printMark_refuses .all text.toSource).1
    exact ⟨text, herror, hdepth, (hencoded.2 (Nat.lt_of_lt_of_eq (by decide) hdepth.symm)).1⟩

end LetLang
