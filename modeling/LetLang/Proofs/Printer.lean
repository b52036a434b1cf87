import LetLang.Json.Sink
import LetLang.Tree.Marshal

/-!
# The printer keeps the rules

In memory, the printer encodes a document mark by mark: it refuses a mark for its depth or for stray
bytes only, it spells the marks as in the grammar of JSON, and it indents with blanks and line ends
alone. So what holds of every encoder that keeps these rules holds of the printer.
-/
namespace LetLang.Json

/-! ## Printing mark by mark -/

def Mark.print : Mark → List Char
  | .null => "null".toList
  | .bool b => (if b then "true" else "false").toList
  | .num n => Decimal.ofInt n
  | .str s => writeText s []
  | .name key => writeText (Text.ofString key) []
  | .opening isObject => [if isObject then '\x7b' else '[']
  | .closing isObject => [if isObject then '\x7d' else ']']

/-- What a layout puts before a mark that stands inside `depth` arrays and objects. -/
def Layout.blanks (layout : Layout) (depth : Nat) : Place → Mark → List Char
  | .start, _ => []
  | .named, _ => layout.gap
  | .first, .closing _ => []
  | .behind, .closing _ => layout.line (depth - 1)
  | .first, _ | .behind, _ => layout.line depth

/-- What the printer appends for a mark. -/
def printMark : Writer := fun mode done m =>
  match m.refusal? (opened done) with
  | some reason => .error reason
  | none =>
    .ok (separator (placeAfter done) m ++ mode.layout.blanks (opened done) (placeAfter done) m ++
      m.print)

/-- The same for marks at a place inside `depth` arrays and objects. -/
def printMarks (layout : Layout) (depth : Nat) (place : Place) :
    List Mark → Except String (List Char)
  | [] => .ok []
  | m :: ms =>
    match m.refusal? depth with
    | some reason => .error reason
    | none =>
      (printMarks layout (m.depthBehind depth) m.placeBehind ms).map fun rest =>
        separator place m ++ layout.blanks depth place m ++ m.print ++ rest

theorem run_printMark (mode : Mode) (done ms : List Mark) :
    printMark.run mode done ms = printMarks mode.layout (opened done) (placeAfter done) ms := by
  induction ms generalizing done with
  | nil => rfl
  | cons m ms ih =>
    rw [Writer.run, printMarks, ih, opened_concat, placeAfter_concat, printMark]
    cases m.refusal? (opened done) <;> rfl

/-! ## Documents -/

theorem writeText_append (s : Text) (tail : List Char) : writeText s tail = writeText s [] ++ tail := by
  simp [writeText]

theorem print_name_append (key : String) (tail : List Char) :
    (Mark.name key).print ++ tail = writeText (Text.ofString key) tail :=
  (writeText_append _ tail).symm

/-- What stands before a value at a place. -/
def lead (layout : Layout) (depth : Nat) (place : Place) : List Char :=
  separator place .null ++ layout.blanks depth place .null

/-- The result of printing a part of a document, if it has no fault, and what follows. -/
def followedBy (fault? : Option Fault) (write : List Char → List Char)
    (rest : Except String (List Char)) : Except String (List Char) :=
  match fault? with
  | some f => .error f.reason
  | none => rest.map write

theorem followedBy_append {fault? : Option Fault} {write : List Char → List Char}
    {rest : Except String (List Char)} (front : List Char) :
    (followedBy fault? write rest).map (front ++ ·) =
      followedBy fault? (fun text => front ++ write text) rest := by
  cases fault? with
  | some f => rfl
  | none => cases rest <;> rfl

/-- Of two faults the first one counts. -/
theorem followedBy_followedBy {first others : Option Fault} {write write' : List Char → List Char}
    {rest : Except String (List Char)} :
    followedBy first write (followedBy others write' rest) =
      followedBy (match first with
        | some f => some f
        | none => others) (fun text => write (write' text)) rest := by
  cases first with
  | some f => rfl
  | none =>
    cases others with
    | some f => rfl
    | none => cases rest <;> rfl

section Documents

variable (layout : Layout) (depth : Nat) (place : Place) (ms : List Mark)

/-- A value that is one mark. -/
theorem printMarks_value {m : Mark} (value : m.placeBehind = .behind)
    (level : m.depthBehind depth = depth)
    (before : separator place m ++ layout.blanks depth place m = lead layout depth place)
    {fault? : Option Fault} (fault : m.refusal? depth = fault?.map Fault.reason) :
    printMarks layout depth place (m :: ms) =
      followedBy fault? (fun rest => lead layout depth place ++ (m.print ++ rest))
        (printMarks layout depth .behind ms) := by
  rw [printMarks, fault, level, value, before]
  simp only [List.append_assoc]
  cases fault? <;> rfl

/-- The opening of an array or object. -/
theorem printMarks_opening (isObject : Bool) :
    printMarks layout depth place (.opening isObject :: ms) =
      if depth < maxDepth then
        (printMarks layout (depth + 1) .first ms).map
          ((lead layout depth place ++ (Mark.opening isObject).print) ++ ·)
      else .error Fault.tooDeep.reason := by
  have before : separator place (.opening isObject) ++ layout.blanks depth place (.opening isObject) =
      lead layout depth place := by
    cases place <;> rfl
  rw [printMarks, before]
  by_cases room : depth < maxDepth
  · have accepted : (Mark.opening isObject).refusal? depth = none := if_pos room
    rw [if_pos room, accepted]
    rfl
  · have refused : (Mark.opening isObject).refusal? depth = some Fault.tooDeep.reason := if_neg room
    rw [if_neg room, refused]

theorem printMarks_name (key : String) :
    printMarks layout depth place (.name key :: ms) =
      (printMarks layout depth .named ms).map
        ((lead layout depth place ++ (Mark.name key).print) ++ ·) := by
  cases place <;> rfl

/-- The end of an empty array or object, behind what was printed of it. -/
theorem printMarks_closing_first (isObject : Bool) (front : List Char) :
    (printMarks layout (depth + 1) .first (.closing isObject :: ms)).map (front ++ ·) =
      followedBy none (fun rest => front ++ ((Mark.closing isObject).print ++ rest))
        (printMarks layout depth .behind ms) := by
  change ((printMarks layout depth .behind ms).map _).map _ = (printMarks layout depth .behind ms).map _
  cases printMarks layout depth .behind ms <;> rfl

theorem printMarks_closing_behind (isObject : Bool) :
    printMarks layout (depth + 1) .behind (.closing isObject :: ms) =
      (printMarks layout depth .behind ms).map
        ((layout.line depth ++ (Mark.closing isObject).print) ++ ·) := rfl

end Documents

mutual

/-- Printing the marks of a document prints the document. -/
theorem printMarks_marks (layout : Layout) (depth : Nat) (place : Place) (ms : List Mark) (j : Json) :
    printMarks layout depth place (j.marks ++ ms) =
      followedBy (j.fault? depth) (fun rest => lead layout depth place ++ j.write layout depth rest)
        (printMarks layout depth .behind ms) := by
  cases j with
  | null => exact printMarks_value layout depth place ms rfl rfl (by cases place <;> rfl) rfl
  | bool b =>
    have accepted : (Mark.bool b).refusal? depth = none.map Fault.reason := rfl
    have h := printMarks_value layout depth place ms rfl rfl (by cases place <;> rfl) accepted
    cases b <;> exact h
  | num n => exact printMarks_value layout depth place ms rfl rfl (by cases place <;> rfl) rfl
  | str s =>
    have hwrite : (fun rest => lead layout depth place ++ (str s).write layout depth rest) =
        fun rest => lead layout depth place ++ ((Mark.str s).print ++ rest) :=
      funext fun rest => congrArg _ (writeText_append s rest)
    rw [hwrite]
    refine printMarks_value layout depth place ms rfl rfl (by cases place <;> rfl) ?_
    rw [Mark.refusal?, fault?]
    cases s.chars?.isSome <;> rfl
  | arr items =>
    rw [marks, List.cons_append, List.append_assoc, printMarks_opening, fault?]
    by_cases room : depth < maxDepth
    · rw [if_pos room, if_pos room, List.singleton_append]
      cases items with
      | nil =>
        rw [itemMarks, List.nil_append, printMarks_closing_first]
        simp only [List.append_assoc]
        rfl
      | cons j js =>
        rw [itemMarks, List.append_assoc, printMarks_marks, printMarks_itemMarks,
          followedBy_followedBy, followedBy_append, faultItems?]
        simp only [List.append_assoc]
        rfl
    · rw [if_neg room, if_neg room]
      rfl
  | obj members =>
    rw [marks, List.cons_append, List.append_assoc, printMarks_opening, fault?]
    by_cases room : depth < maxDepth
    · rw [if_pos room, if_pos room, List.singleton_append]
      cases members with
      | nil =>
        rw [memberMarks, List.nil_append, printMarks_closing_first]
        simp only [List.append_assoc]
        rfl
      | cons member members =>
        obtain ⟨key, j⟩ := member
        rw [memberMarks, List.cons_append, List.append_assoc, printMarks_name, printMarks_marks,
          printMarks_memberMarks, followedBy_followedBy, followedBy_append, followedBy_append,
          faultMembers?]
        simp only [List.append_assoc, print_name_append]
        rfl
    · rw [if_neg room, if_neg room]
      rfl

theorem printMarks_itemMarks (layout : Layout) (depth : Nat) (ms : List Mark) (js : List Json) :
    printMarks layout (depth + 1) .behind (itemMarks js ++ .closing false :: ms) =
      followedBy (faultItems? (depth + 1) js) (writeItems layout depth js)
        (printMarks layout depth .behind ms) := by
  cases js with
  | nil =>
    rw [itemMarks, List.nil_append, printMarks_closing_behind]
    change _ = (printMarks layout depth .behind ms).map _
    simp only [List.append_assoc]
    rfl
  | cons j js =>
    rw [itemMarks, List.append_assoc, printMarks_marks, printMarks_itemMarks, followedBy_followedBy,
      faultItems?]
    rfl

theorem printMarks_memberMarks (layout : Layout) (depth : Nat) (ms : List Mark)
    (members : List (String × Json)) :
    printMarks layout (depth + 1) .behind (memberMarks members ++ .closing true :: ms) =
      followedBy (faultMembers? (depth + 1) members) (writeMembers layout depth members)
        (printMarks layout depth .behind ms) := by
  cases members with
  | nil =>
    rw [memberMarks, List.nil_append, printMarks_closing_behind]
    change _ = (printMarks layout depth .behind ms).map _
    simp only [List.append_assoc]
    rfl
  | cons member members =>
    obtain ⟨key, j⟩ := member
    rw [memberMarks, List.cons_append, List.append_assoc, printMarks_name, printMarks_marks,
      printMarks_memberMarks, followedBy_followedBy, followedBy_append, faultMembers?]
    simp only [List.append_assoc, print_name_append]
    rfl

end

/-! ## The rules -/

/-- In memory, the printer encodes a document by printing its marks. -/
theorem printer_inOrder : (printer .memory).InOrder printMark := by
  intro mode n j _
  have h := printMarks_marks mode.layout 0 .start [] j
  rw [List.append_nil] at h
  rw [run_printMark]
  change _ = printMarks mode.layout 0 .start j.marks
  rw [h, printer, encode]
  cases j.fault? 0 <;> rfl

theorem printMark_of_accepted {mode : Mode} {done : List Mark} {m : Mark}
    (accepted : m.refusal? (opened done) = none) :
    printMark mode done m =
      .ok (separator (placeAfter done) m ++ mode.layout.blanks (opened done) (placeAfter done) m ++
        m.print) := by
  rw [printMark, accepted]

theorem printMark_refuses : printMark.Refuses where
  refused mode done m reason _ refused := by rw [printMark, refused]
  written mode done m _ accepted := ⟨_, printMark_of_accepted accepted⟩

theorem accepted_of_printMark {mode : Mode} {done : List Mark} {m : Mark} {text : List Char}
    (h : printMark mode done m = .ok text) : m.refusal? (opened done) = none := by
  rw [printMark] at h
  split at h
  next => cases h
  next accepted => exact accepted

/-! ## Spelling -/

theorem hexValue?_hexDigit : ∀ n, n < 16 → hexValue? (hexDigit n) = some n := by
  decide

/-- The printer escapes as the grammar allows. -/
theorem escapes_escape (c : Char) : Escapes c (escape c) := by
  have letter {l : Char} {n : Nat} (h : c.toNat = n) (listed : letters.lookup l = some (Char.ofNat n)) :
      Escapes c ['\\', l] := by
    refine .letter (listed.trans ?_)
    rw [← h, Char.ofNat_toNat]
  unfold escape
  split
  next h =>
    rw [h]
    exact .letter rfl
  split
  next h =>
    rw [h]
    exact .letter rfl
  split
  next h => exact letter h rfl
  split
  next h => exact letter h rfl
  split
  next h => exact letter h rfl
  split
  next h => exact letter h rfl
  split
  next h => exact letter h rfl
  split
  next control =>
    refine .code ?_
    have hhigh := hexValue?_hexDigit (c.toNat / 16) (by omega)
    have hlow := hexValue?_hexDigit (c.toNat % 16) (by omega)
    have hzero : hexValue? '0' = some 0 := by decide
    rw [hexCode?, hhigh, hlow, hzero]
    simp only [Option.some.injEq]
    omega
  next hquote hslash _ _ _ _ _ control => exact .plain (Nat.not_lt.mp control) hquote hslash

theorem inside_escapes (cs : List Char) : Inside cs (cs.flatMap escape) := by
  induction cs with
  | nil => exact .nil
  | cons c cs ih => exact .cons (escapes_escape c) ih

theorem writeText_ofChars (cs : List Char) :
    writeText (Text.ofChars cs) [] = '\x22' :: (cs.flatMap escape ++ ['\x22']) := by
  rw [writeText, Text.ofChars, List.flatMap_map]
  rfl

theorem spelled_print {depth : Nat} {m : Mark} (accepted : m.refusal? depth = none) :
    m.Spelled m.print := by
  cases m with
  | null => exact .null
  | bool b => exact .bool b
  | num n => exact .num n
  | str s =>
    have valid : s.chars?.isSome := by
      rw [Mark.refusal?] at accepted
      split at accepted
      next h => exact h
      next => cases accepted
    obtain ⟨cs, hcs⟩ := Option.isSome_iff_exists.mp valid
    obtain rfl := Text.eq_ofChars_of_chars? hcs
    rw [Mark.print, writeText_ofChars]
    exact .str (inside_escapes cs)
  | name key =>
    rw [Mark.print, Text.ofString, writeText_ofChars]
    exact .name (inside_escapes key.toList)
  | opening isObject => exact .opening isObject
  | closing isObject => exact .closing isObject

theorem blanks_compact (depth : Nat) (place : Place) (m : Mark) :
    Layout.compact.blanks depth place m = [] := by
  cases place <;> cases m <;> rfl

theorem printMark_spells : printMark.Spells := by
  intro done m text _ h
  have accepted := accepted_of_printMark h
  rw [printMark_of_accepted accepted, Mode.layout, blanks_compact, List.append_nil] at h
  cases h
  exact ⟨m.print, spelled_print accepted, rfl⟩

/-- Two blanks for a level, each level on a line of its own. -/
theorem isBlank_of_mem_blanks {depth : Nat} {place : Place} {m : Mark} {c : Char}
    (hc : c ∈ Layout.indented.blanks depth place m) : c = ' ' ∨ c = '\n' := by
  have line (depth : Nat) (hc : c ∈ Layout.indented.line depth) : c = ' ' ∨ c = '\n' := by
    rcases List.mem_cons.mp hc with rfl | hc
    · exact .inr rfl
    · exact .inl (List.eq_of_mem_replicate hc)
  cases place with
  | start => cases hc
  | named => exact .inl (List.mem_singleton.mp hc)
  | first =>
    cases m with
    | closing => cases hc
    | _ => exact line depth hc
  | behind =>
    cases m with
    | closing => exact line (depth - 1) hc
    | _ => exact line depth hc

theorem printMark_indents : printMark.Indents := by
  intro done m line lines _ h h'
  have accepted := accepted_of_printMark h
  rw [printMark_of_accepted accepted, Mode.layout, blanks_compact, List.append_nil] at h
  rw [printMark_of_accepted accepted] at h'
  cases h
  cases h'
  exact ⟨[], _, m.print, rfl, rfl, fun c hc => isBlank_of_mem_blanks hc⟩

end LetLang.Json
