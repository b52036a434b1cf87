import LetLang.Proofs.JsonText
import LetLang.Proofs.Printer

/-!
# The two layouts of a JSON text

An encoder that only puts blanks and line ends around its separators gives an indented text that differs
from the compact one in nothing else. Deleting them leaves the compact text, but what stands inside a
string has to be kept, and to tell where a string ends a reader of the text minds the backslashes: a
quote behind one does not end it. The two texts are followed mark by mark, and at the first mark that is
refused in one mode it is refused in the other for the same reason.
-/
namespace LetLang

namespace Json

/-! ## Deleting a layout -/

/-- Where a reader of a text stands: between tokens, in a string, or behind a backslash in a string. -/
inductive Zone where
  | outside
  | inside
  | escaped
deriving DecidableEq

/-- The zone behind a character. -/
def Zone.next : Zone → Char → Zone
  | .outside, c => if c = '\x22' then .inside else .outside
  | .inside, c => if c = '\\' then .escaped else if c = '\x22' then .outside else .inside
  | .escaped, _ => .inside

def IsBlank (c : Char) : Prop :=
  c = ' ' ∨ c = '\n'

instance (c : Char) : Decidable (IsBlank c) :=
  inferInstanceAs (Decidable (_ ∨ _))

/-- A text, read from a zone, without the blanks and line ends that stand outside of strings. -/
def squeeze (z : Zone) : List Char → List Char
  | [] => []
  | c :: s => if z = .outside ∧ IsBlank c then squeeze z s else c :: squeeze (z.next c) s

theorem squeeze_blanks {cs : List Char} (blank : ∀ c ∈ cs, IsBlank c) (s : List Char) :
    squeeze .outside (cs ++ s) = squeeze .outside s := by
  induction cs with
  | nil => rfl
  | cons c cs ih =>
    have hc : Zone.outside = .outside ∧ IsBlank c := ⟨rfl, blank c List.mem_cons_self⟩
    rw [List.cons_append, squeeze, if_pos hc]
    exact ih fun d hd => blank d (List.mem_cons_of_mem c hd)

/-! ## Tokens outside of strings -/

/-- A character that is kept outside of strings and opens none. -/
def IsPlain (c : Char) : Prop :=
  ¬ IsBlank c ∧ c ≠ '\x22'

instance (c : Char) : Decidable (IsPlain c) :=
  inferInstanceAs (Decidable (_ ∧ _))

theorem squeeze_cons_plain {c : Char} (plain : IsPlain c) (s : List Char) :
    squeeze .outside (c :: s) = c :: squeeze .outside s := by
  rw [squeeze, if_neg fun h => plain.1 h.2, Zone.next, if_neg plain.2]

theorem squeeze_plain {cs : List Char} (plain : ∀ c ∈ cs, IsPlain c) (s : List Char) :
    squeeze .outside (cs ++ s) = cs ++ squeeze .outside s := by
  induction cs with
  | nil => rfl
  | cons c cs ih =>
    rw [List.cons_append, squeeze_cons_plain (plain c List.mem_cons_self),
      ih fun d hd => plain d (List.mem_cons_of_mem c hd)]
    rfl

theorem isPlain_digit : ∀ d : Digit, IsPlain d.toChar := by
  decide

theorem isPlain_ofNat (n : Nat) : ∀ c ∈ Decimal.ofNat n, IsPlain c := by
  intro c hc
  obtain ⟨d, -, rfl⟩ := List.mem_map.mp hc
  exact isPlain_digit d

theorem isPlain_ofInt (n : Int) : ∀ c ∈ Decimal.ofInt n, IsPlain c := by
  cases n with
  | ofNat n => exact isPlain_ofNat n
  | negSucc n =>
    intro c hc
    rcases List.mem_cons.mp hc with rfl | hc
    · decide
    · exact isPlain_ofNat (n + 1) c hc

/-! ## Strings -/

theorem squeeze_inside {c : Char} (hslash : c ≠ '\\') (hquote : c ≠ '\x22') (s : List Char) :
    squeeze .inside (c :: s) = c :: squeeze .inside s := by
  rw [squeeze, if_neg nofun, Zone.next, if_neg hslash, if_neg hquote]

/-- The character behind a backslash is kept, and reading goes on inside the string. -/
theorem squeeze_backslash (c : Char) (s : List Char) :
    squeeze .inside ('\\' :: c :: s) = '\\' :: c :: squeeze .inside s := by
  rfl

theorem squeeze_hexDigit {c : Char} {n : Nat} (h : hexValue? c = some n) (s : List Char) :
    squeeze .inside (c :: s) = c :: squeeze .inside s := by
  refine squeeze_inside ?_ ?_ s
  · rintro rfl
    cases h
  · rintro rfl
    cases h

/-- The four digits of a code are kept. -/
theorem squeeze_code {w x y z : Char} {n : Nat} (h : hexCode? w x y z = some n) (s : List Char) :
    squeeze .inside ('\\' :: 'u' :: w :: x :: y :: z :: s) =
      '\\' :: 'u' :: w :: x :: y :: z :: squeeze .inside s := by
  unfold hexCode? at h
  split at h
  next hw hx hy hz =>
    rw [squeeze_backslash, squeeze_hexDigit hw, squeeze_hexDigit hx, squeeze_hexDigit hy,
      squeeze_hexDigit hz]
  next => cases h

/-- No escape ends the string it stands in. -/
theorem squeeze_escaped {c : Char} {written : List Char} (h : Escapes c written) (s : List Char) :
    squeeze .inside (written ++ s) = written ++ squeeze .inside s := by
  cases h with
  | plain _ quote slash => exact squeeze_inside slash quote s
  | letter => exact squeeze_backslash _ s
  | code value => exact squeeze_code value s
  | halves upper lower =>
    simp only [List.cons_append, List.nil_append]
    rw [squeeze_code upper, squeeze_code lower]

theorem Inside.squeeze_append {cs inside : List Char} (h : Inside cs inside) (s : List Char) :
    squeeze .inside (inside ++ s) = inside ++ squeeze .inside s := by
  induction h with
  | nil => rfl
  | cons first _ ih => rw [List.append_assoc, squeeze_escaped first, ih, List.append_assoc]

/-- Nothing is deleted in a string, and behind it reading goes on outside. -/
theorem Inside.squeeze_quoted {cs inside : List Char} (h : Inside cs inside) (s : List Char) :
    squeeze .outside ('\x22' :: (inside ++ ['\x22']) ++ s) =
      '\x22' :: (inside ++ ['\x22']) ++ squeeze .outside s := by
  have hopen (u : List Char) : squeeze .outside ('\x22' :: u) = '\x22' :: squeeze .inside u := rfl
  have hclose : squeeze .inside ('\x22' :: s) = '\x22' :: squeeze .outside s := rfl
  rw [List.cons_append, List.append_assoc, hopen, h.squeeze_append, List.singleton_append, hclose,
    List.cons_append, List.append_assoc]
  rfl

/-! ## Marks -/

/-- Nothing is deleted in a mark, and behind it reading goes on outside of strings. -/
theorem Mark.Spelled.squeeze_append {m : Mark} {body : List Char} (h : m.Spelled body)
    (s : List Char) : squeeze .outside (body ++ s) = body ++ squeeze .outside s := by
  cases h with
  | null => exact squeeze_plain (by simp [IsPlain, IsBlank]) s
  | bool b => cases b <;> exact squeeze_plain (by simp [IsPlain, IsBlank]) s
  | num n => exact squeeze_plain (isPlain_ofInt n) s
  | str inside => exact inside.squeeze_quoted s
  | name inside => exact inside.squeeze_quoted s
  | opening isObject | closing isObject =>
    cases isObject <;> exact squeeze_plain (List.forall_mem_singleton.mpr (by decide)) s

theorem isPlain_separator (place : Place) (m : Mark) : ∀ c ∈ separator place m, IsPlain c := by
  cases place with
  | start | first => exact List.forall_mem_nil _
  | named => exact List.forall_mem_singleton.mpr (by decide)
  | behind =>
    cases m with
    | closing => exact List.forall_mem_nil _
    | _ => exact List.forall_mem_singleton.mpr (by decide)

/-- A mark with blanks around its separator is left with the separator alone. -/
theorem squeeze_mark {place : Place} {m : Mark} {before behind body : List Char}
    (spelled : m.Spelled body) (blank : ∀ c ∈ before ++ behind, IsBlank c) (s : List Char) :
    squeeze .outside (before ++ separator place m ++ behind ++ body ++ s) =
      separator place m ++ body ++ squeeze .outside s := by
  obtain ⟨hbefore, hbehind⟩ := List.forall_mem_append.mp blank
  simp only [List.append_assoc]
  rw [squeeze_blanks hbefore, squeeze_plain (isPlain_separator place m), squeeze_blanks hbehind,
    spelled.squeeze_append]

/-- Where marks of a document are written in both modes, they are written alike but for the blanks. -/
theorem Writer.squeeze_run {write : Writer} (spells : write.Spells) (indents : write.Indents) {n : Node}
    {j : Json} (hj : n.document? = some j) {done ms : List Mark} (split : j.marks = done ++ ms)
    {line lines : List Char} (hline : write.run .compact done ms = .ok line)
    (hlines : write.run .indented done ms = .ok lines) : squeeze .outside lines = line := by
  induction ms generalizing done line lines with
  | nil =>
    cases hline
    cases hlines
    rfl
  | cons m ms ih =>
    have occurs : m.Occurs done := .of_split hj split
    obtain ⟨text, rest, htext, hrest, rfl⟩ := exists_of_run_cons hline
    obtain ⟨text', rest', htext', hrest', rfl⟩ := exists_of_run_cons hlines
    obtain ⟨body, spelled, rfl⟩ := spells done m text occurs htext
    obtain ⟨before, behind, body', hbody, rfl, blank⟩ := indents done m _ text' occurs htext htext'
    obtain rfl := List.append_cancel_left hbody
    rw [squeeze_mark spelled blank, ih (split.trans (List.append_cons done m ms)) hrest hrest']

end Json

/-- A node that has a document fails for the same reason in one line and indented, or else it has both
texts, and the indented one is the other with blanks and line ends put in outside of strings. -/
theorem compact_and_indented_agree {encode : Json.Encoder} {write : Json.Writer}
    (inOrder : encode.InOrder write) (refuses : write.Refuses) (spells : write.Spells)
    (indents : write.Indents) {n : Node} (built : n.document?.isSome) :
    (∃ message, n.marshal? encode = some (.error message) ∧
        n.marshalIndented? encode = some (.error message)) ∨
      ∃ line lines, n.marshal? encode = some (.ok line) ∧
        n.marshalIndented? encode = some (.ok lines) ∧ Json.squeeze .outside lines = line := by
  obtain ⟨j, hj⟩ := Option.isSome_iff_exists.mp built
  have split : j.marks = [] ++ j.marks := rfl
  rw [Node.marshal?, Node.marshalIndented?, hj, Option.map_some, Option.map_some,
    inOrder .compact n j hj, inOrder .indented n j hj]
  cases hfirst : Json.firstRefusal? 0 j.marks with
  | some reason =>
    rw [refuses.run_eq_error hj split hfirst .compact, refuses.run_eq_error hj split hfirst .indented]
    exact .inl ⟨_, rfl, rfl⟩
  | none =>
    obtain ⟨line, hline⟩ := refuses.exists_run_eq_ok hj split hfirst .compact
    obtain ⟨lines, hlines⟩ := refuses.exists_run_eq_ok hj split hfirst .indented
    rw [hline, hlines]
    exact .inr ⟨line, lines, rfl, rfl, Json.Writer.squeeze_run spells indents hj split hline hlines⟩

/-- A quote in a string does not end it, so the blank behind it is kept. -/
theorem compact_and_indented_agree_absent_stmt :
    let n := Node.expr (.block [.absent,
      .stated (.string [.char '\x22', .char '\\', .char ' '] none ⟨1, 5⟩) ⟨1, 5⟩] ⟨0, 6⟩)
    n.document?.isSome ∧ ∃ line lines, n.marshal? (Json.printer .memory) = some (.ok line) ∧
      n.marshalIndented? (Json.printer .memory) = some (.ok lines) ∧
      Json.squeeze .outside lines = line ∧
      line =
        "\x7b\x22type\x22:\x22Block\x22,\x22pos\x22:\x7b\x22start\x22:0,".toList ++
          "\x22end\x22:6\x7d,\x22statements\x22:[null,".toList ++
          "\x7b\x22type\x22:\x22Expr\x22,\x22pos\x22:\x7b\x22start\x22:1,".toList ++
          "\x22end\x22:5\x7d,\x22expr\x22:\x7b\x22type\x22:\x22String\x22,".toList ++
          "\x22pos\x22:\x7b\x22start\x22:1,\x22end\x22:5\x7d,".toList ++
          "\x22value\x22:\x22\\\x22\\\\ \x22\x7d\x7d]\x7d".toList ∧
      lines =
        "\x7b\n  \x22type\x22: \x22Block\x22,\n  \x22pos\x22: \x7b\n".toList ++
          "    \x22start\x22: 0,\n    \x22end\x22: 6\n  \x7d,\n".toList ++
          "  \x22statements\x22: [\n    null,\n    \x7b\n".toList ++
          "      \x22type\x22: \x22Expr\x22,\n      \x22pos\x22: \x7b\n".toList ++
          "        \x22start\x22: 1,\n        \x22end\x22: 5\n      \x7d,\n".toList ++
          "      \x22expr\x22: \x7b\n        \x22type\x22: \x22String\x22,\n".toList ++
          "        \x22pos\x22: \x7b\n          \x22start\x22: 1,\n".toList ++
          "          \x22end\x22: 5\n        \x7d,\n".toList ++
          "        \x22value\x22: \x22\\\x22\\\\ \x22\n      \x7d\n    \x7d\n  ]\n".toList ++
          "\x7d".toList := by
  intro n
  have built : n.document?.isSome := rfl
  refine ⟨built, ?_⟩
  rcases compact_and_indented_agree Json.printer_inOrder Json.printMark_refuses
    Json.printMark_spells Json.printMark_indents built with
    ⟨message, hmessage, -⟩ | ⟨line, lines, hline, hlines, hsqueeze⟩
  · cases hmessage
  · refine ⟨line, lines, hline, hlines, hsqueeze, ?_, ?_⟩
    · cases hline
      decide +kernel
    · cases hlines
      decide +kernel

end LetLang
